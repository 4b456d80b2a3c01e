import Raims.Auth.InboxAuth
import Raims.LinkState.UserRoster
import Raims.Sub.AnyMatch
import Raims.User.MemberRoster
import Raims.User.PeerSession
import Raims.User.QueueBits

/-!
# One roster for all parts of `UserDB`

`add_user`, `add_authenticated` and `remove_authenticated` change the peers for the link
state, the summaries, the keys, the queues and the subscriptions at once, and each of
these is a part of its own here. They have the same peers: what the parts do is to enter,
to join and to leave one roster, and they refuse a peer in the same cases. So do the two
parts that read a challenge write the same key.
-/

namespace Raims

/-- An entry of a table, as `g` reads it. -/
theorem map_update {κ α β : Type*} [DecidableEq κ] (g : α → β) (t : κ → Option α) (k : κ)
    (v : Option α) :
    (fun x => (Function.update t k v x).map g) =
      Function.update (fun x => (t x).map g) k (v.map g) := by
  ext x : 1
  by_cases hx : x = k
  · subst hx
    rw [Function.update_self, Function.update_self]
  · rw [Function.update_of_ne hx, Function.update_of_ne hx]

/-! ## When a peer is refused -/

/-- A zombie is told of again too soon. -/
def Member.early (n : Member) (stage : AuthType) (curMono : ℕ) : Bool :=
  stage.isIndirect && decide (0 < n.authMonoTime) &&
    decide (n.authMonoTime + Member.secToNs
      ((if n.removeAuthMono + Member.secToNs 15 > curMono then min 8 n.authCount else 0) * 2) >
        curMono)

theorem Member.refuses_eq (n : Member) (stage : AuthType) (curMono : ℕ) :
    n.refuses stage curMono =
      (n.isSet .zombie && (n.lastAuthType = .byeBye || n.early stage curMono)) := rfl

/-- `last_auth_type == BYE_BYE` -/
def AuthType.isByeBye (t : AuthType) : Bool := t = .byeBye

/-- A challenge brings back every zombie that did not say bye: the handshake refuses whom the
summaries refuse. -/
theorem Member.refuses_of_isKeyExchange {stage : AuthType} (n : Member) (curMono : ℕ)
    (h : stage.isKeyExchange = true) :
    n.refuses stage curMono = (n.isSet .zombie && n.lastAuthType.isByeBye) := by
  have hearly : n.early stage curMono = false := by cases stage <;> first | rfl | cases h
  rw [refuses_eq, hearly, Bool.or_false]
  rfl

/-! ## The keys -/

namespace PeerSession

def Peer.entry (n : Peer) : Nonce × Standing := (n.nonce, ⟨n.authenticated, n.zombie⟩)

namespace NodeDB

variable {τ : Type*} {db : NodeDB τ} {uid : UInt32} {n : Peer}

/-- What `g` reads of the peers, by the numbers that their uids are. -/
def view {α : Type} (g : Peer → α) (db : NodeDB τ) (id : ℕ) : Option α :=
  if id < 2 ^ 32 then (db.bridgeTab (UInt32.ofNat id)).map g else none

def roster (db : NodeDB τ) : Roster Nonce where
  nextId := db.nextUid
  here nonce := (db.nodeHt nonce).map UInt32.toNat
  gone nonce := (db.zombieHt nonce).map UInt32.toNat
  member := db.view Peer.entry

/-- Which peers said bye, when they were removed last. -/
def saidBye (db : NodeDB τ) : ℕ → Option Bool := db.view Peer.byeBye

theorem view_toNat {α : Type} (g : Peer → α) (db : NodeDB τ) (uid : UInt32) :
    db.view g uid.toNat = (db.bridgeTab uid).map g := by
  rw [view, if_pos uid.toNat_lt, UInt32.ofNat_toNat]

theorem view_put {α : Type} (g : Peer → α) (db : NodeDB τ) (uid : UInt32) (n : Peer) :
    (db.put uid n).view g = Function.update (db.view g) uid.toNat (some (g n)) := by
  ext id : 1
  by_cases hid : id = uid.toNat
  · subst hid
    rw [view_toNat, put_self, Function.update_self]
    rfl
  · rw [Function.update_of_ne hid, view, view]
    by_cases hlt : id < 2 ^ 32
    · have hne : UInt32.ofNat id ≠ uid := by
        rintro rfl
        exact hid (UInt32.toNat_ofNat_of_lt' hlt).symm
      rw [if_pos hlt, if_pos hlt, put_of_ne n hne]
    · rw [if_neg hlt, if_neg hlt]

theorem member_roster (db : NodeDB τ) (uid : UInt32) :
    db.roster.member uid.toNat = (db.bridgeTab uid).map Peer.entry := view_toNat Peer.entry db uid

theorem roster_addUser (db : NodeDB τ) (nonce : Nonce) (hlt : db.nextUid < 2 ^ 32) :
    (db.addUser nonce).1.roster = db.roster.enter nonce := by
  have hnat : (UInt32.ofNat db.nextUid).toNat = db.nextUid := UInt32.toNat_ofNat_of_lt' hlt
  have hmember := view_put Peer.entry db (UInt32.ofNat db.nextUid) (Peer.new nonce)
  have hhere := map_update UInt32.toNat db.nodeHt nonce (some (UInt32.ofNat db.nextUid))
  rw [hnat] at hmember
  rw [Option.map_some, hnat] at hhere
  rw [addUser, if_pos hlt]
  exact Roster.ext rfl hhere rfl hmember

theorem view_setKey {α : Type} (g : Peer → α) (db : NodeDB τ) (uid : UInt32)
    (key : PeerKeys.Digest) (hg : ∀ n : Peer, g { n with peerKey := key } = g n) :
    (db.setKey uid key).view g = db.view g := by
  unfold setKey
  split
  · rfl
  · next n hn =>
    rw [view_put, hg, show some (g n) = db.view g uid.toNat by rw [view_toNat, hn]; rfl]
    exact Function.update_eq_self ..

/-- A key that is written leaves the peers as they are. -/
theorem roster_setKey (db : NodeDB τ) (uid : UInt32) (key : PeerKeys.Digest) :
    (db.setKey uid key).roster = db.roster := by
  have hmember := view_setKey Peer.entry db uid key fun _ => rfl
  unfold setKey at hmember ⊢
  split at hmember
  · rfl
  · exact Roster.ext rfl rfl rfl hmember

theorem roster_addAuthenticated (db : NodeDB τ) (uid : UInt32) (early : Bool) :
    (db.addAuthenticated uid early).roster =
      if (db.bridgeTab uid).any (fun n => n.zombie && (n.byeBye || early)) then db.roster
      else db.roster.join uid.toNat := by
  have hm := member_roster db uid
  unfold addAuthenticated
  cases hn : db.bridgeTab uid with
  | none =>
    rw [hn] at hm
    rw [Roster.join, hm]
    exact (ite_self _).symm
  | some n =>
    rw [hn] at hm
    simp only [Option.any_some]
    split
    · rfl
    · rw [Roster.join_eq hm]
      have hmember := view_put Peer.entry db uid
        { n with authenticated := true, zombie := false, byeBye := false }
      cases hz : n.zombie with
      | false => exact congrArg (Roster.mk _ _ _) hmember
      | true =>
        exact Roster.ext rfl (map_update UInt32.toNat db.nodeHt n.nonce (some uid))
          (map_update UInt32.toNat db.zombieHt n.nonce none) hmember

theorem roster_removeAuthenticated (db : NodeDB τ) (uid : UInt32) (byeBye : Bool) :
    (db.removeAuthenticated uid byeBye).roster = db.roster.leave uid.toNat := by
  have hm := member_roster db uid
  unfold removeAuthenticated
  cases hn : db.bridgeTab uid with
  | none =>
    rw [hn] at hm
    rw [Roster.leave, hm]
    rfl
  | some n =>
    rw [hn] at hm
    rw [Roster.leave_eq hm]
    have hmember := view_put Peer.entry db uid
      { n with authenticated := false, zombie := true, byeBye := byeBye }
    refine Roster.ext rfl (map_update UInt32.toNat db.nodeHt n.nonce none) ?_ hmember
    dsimp only
    cases n.zombie with
    | false => exact map_update UInt32.toNat db.zombieHt n.nonce (some uid)
    | true => rfl

theorem saidBye_addUser (db : NodeDB τ) (nonce : Nonce) (hlt : db.nextUid < 2 ^ 32) :
    (db.addUser nonce).1.saidBye = Function.update db.saidBye db.nextUid (some false) := by
  have hput := view_put Peer.byeBye db (UInt32.ofNat db.nextUid) (Peer.new nonce)
  rw [UInt32.toNat_ofNat_of_lt' hlt] at hput
  rw [addUser, if_pos hlt]
  exact hput

theorem saidBye_addAuthenticated (hn : db.bridgeTab uid = some n) {early : Bool}
    (hok : (n.zombie && (n.byeBye || early)) = false) :
    (db.addAuthenticated uid early).saidBye =
      Function.update db.saidBye uid.toNat (some false) := by
  have hput := view_put Peer.byeBye db uid
    { n with authenticated := true, zombie := false, byeBye := false }
  rw [addAuthenticated, hn]
  dsimp only
  rw [hok, if_neg Bool.false_ne_true]
  split <;> exact hput

theorem saidBye_removeAuthenticated (hn : db.bridgeTab uid = some n) (byeBye : Bool) :
    (db.removeAuthenticated uid byeBye).saidBye =
      Function.update db.saidBye uid.toNat (some byeBye) := by
  rw [removeAuthenticated, hn]
  exact view_put Peer.byeBye db uid
    { n with authenticated := false, zombie := true, byeBye := byeBye }

end NodeDB

end PeerSession

/-! ## The queues and the subscriptions -/

def QueuedBridge.standing (n : QueuedBridge) : Standing :=
  ⟨n.isSet .authenticated, n.isSet .zombie⟩

namespace QueueDB

variable (o : PrioQueue ℕ) (db : QueueDB) (uid : ℕ)

def standing (db : QueueDB) (uid : ℕ) : Standing := (db.bridge uid).standing

theorem standing_addAuthenticated (s : Session) (now : ℕ) (hs : s.refused = false) :
    (db.addAuthenticated o uid s now).standing =
      Function.update db.standing uid ⟨true, false⟩ := by
  ext v : 1
  have hmodify : ((db.modify uid (·.clear .zombie)).bridge uid).isSet .authenticated =
      (db.bridge uid).isSet .authenticated := by
    rw [bridge_modify_self, QueuedBridge.isSet_clear_of_ne _ (by decide)]
  unfold addAuthenticated
  rw [hs, if_neg Bool.false_ne_true]
  by_cases hv : v = uid
  · subst hv
    rw [Function.update_self]
    dsimp only
    split
    · next hauth =>
      rw [hmodify] at hauth
      rw [standing, QueuedBridge.standing, hmodify, hauth, bridge_modify_self,
        QueuedBridge.isSet_clear_self]
    · rw [standing, QueuedBridge.standing]
      simp only [(rerouted_addInboxRoute o _ v s.primary now).isSet, bridge_modify_self,
        Session.isSet_hbTimes, QueuedBridge.isSet_set_self]
      rw [QueuedBridge.isSet_set_of_ne _ (by decide), QueuedBridge.isSet_clear_self]
  · rw [Function.update_of_ne hv]
    dsimp only
    split
    · exact congrArg QueuedBridge.standing (bridge_modify_of_ne hv)
    · rw [standing, bridge_addInboxRoute_of_ne _ hv, bridge_modify_of_ne hv, bridge_modify_of_ne hv]
      rfl

theorem standing_removeAuthenticated :
    (db.removeAuthenticated o uid).standing = Function.update db.standing uid ⟨false, true⟩ := by
  ext v : 1
  by_cases hv : v = uid
  · subst hv
    rw [Function.update_self, standing]
    unfold removeAuthenticated
    rw [bridge_modify_self]
    rfl
  · rw [Function.update_of_ne hv, standing, bridge_removeAuthenticated_of_ne hv]
    rfl

end QueueDB

namespace AnyDB

variable (kv : AnyKv) (db : AnyDB)

/-- Whether the peers are authenticated. -/
def active (uid : ℕ) : Option Bool := (db.find uid).map MatchPeer.authenticated

theorem active_setPeer {uid : ℕ} {n : MatchPeer} (hn : db.find uid = some n) (n' : MatchPeer) :
    (db.setPeer uid n').active = Function.update db.active uid (some n'.authenticated) := by
  ext v : 1
  by_cases hv : v = uid
  · subst hv
    rw [Function.update_self, active, find_setPeer_self hn]
    rfl
  · rw [Function.update_of_ne hv, active, find_setPeer_of_ne hv]
    rfl

theorem active_addUser (ibxLen : ℕ) (ibxHash : UInt32) :
    (db.addUser ibxLen ibxHash).active = Function.update db.active db.nextUid (some false) := by
  ext v : 1
  by_cases hv : v = db.nextUid
  · subst hv
    rw [Function.update_self, active, find, addUser, nextUid]
    simp
  · rw [Function.update_of_ne hv, active, find_addUser _ _ hv]
    rfl

theorem active_addAuthenticated {uid : ℕ} {n : MatchPeer} (hn : db.find uid = some n)
    (route : Bool) :
    (db.addAuthenticated kv uid route).active = Function.update db.active uid (some true) := by
  have hauth : (n.addAuthenticated kv route).authenticated = true := by
    unfold MatchPeer.addAuthenticated
    split
    · next h => exact h
    · unfold MatchPeer.addInboxRoute
      dsimp only
      split <;> [split; skip] <;> rfl
  rw [addAuthenticated, hn]
  exact (active_setPeer db hn _).trans (by rw [hauth])

theorem active_removeAuthenticated {uid : ℕ} {n : MatchPeer} (hn : db.find uid = some n) :
    (db.removeAuthenticated uid).active = Function.update db.active uid (some false) := by
  rw [removeAuthenticated, hn]
  dsimp only
  split
  · exact active_setPeer db.setUpdate hn _
  · exact active_setPeer db hn _

theorem nextUid_addAuthenticated (uid : ℕ) (route : Bool) :
    (db.addAuthenticated kv uid route).nextUid = db.nextUid := by
  unfold addAuthenticated
  split
  · exact List.length_set ..
  · rfl

theorem nextUid_removeAuthenticated (uid : ℕ) :
    (db.removeAuthenticated uid).nextUid = db.nextUid := by
  unfold removeAuthenticated
  split
  · dsimp only
    split <;> exact List.length_set ..
  · rfl

end AnyDB

/-! ## All parts at once -/

/-- The parts of one `UserDB`. -/
structure UserParts (τ : Type*) where
  link : UserDB
  members : MemberDB
  keys : PeerSession.NodeDB τ
  queues : QueueDB
  subs : AnyDB

namespace UserParts

variable {τ : Type*}

/-- The parts have the same peers, in the same tables and the same standing. -/
structure Same (s : UserParts τ) : Prop where
  link : s.link.roster = s.members.roster
  keys : s.keys.roster = s.members.roster
  byeBye : s.keys.saidBye = fun uid => (s.members.lastAuth uid).map AuthType.isByeBye
  queues : ∀ {uid name st}, s.members.roster.member uid = some (name, st) →
    s.queues.standing uid = st
  subs : s.subs.active = fun uid => (s.members.roster.member uid).map (·.2.active)
  nextUid : s.subs.nextUid = s.members.nextUid
  fresh : ∀ {uid}, s.members.nextUid ≤ uid →
    s.members.bridgeTab uid = none ∧ s.queues.standing uid = ⟨false, false⟩

/-- One of the functions that change the peers, for all parts. -/
inductive Event where
  | addUser (nonce : Nonce) (ibxLen : ℕ) (ibxHash : UInt32)
  | addAuthenticated (uid : ℕ) (stage : AuthType) (curMono : ℕ) (synced : List (ℕ × BitVec 32))
      (change : Bool) (session : QueueDB.Session) (route : Bool) (now : ℕ)
  | removeAuthenticated (uid : ℕ) (bye : AuthType) (stage : Bye) (curMono : ℕ) (change : Bool)
  /-- a message about link states, a key that is written, or an event of the summaries that
  changes no peer -/
  | linkState (e : UserDB.Event)
  | peerKey (uid : UInt32) (key : PeerKeys.Digest)
  | summary (e : MemberDB.Event)

variable (o : PrioQueue ℕ) (kv : AnyKv)

/-- The test of `add_authenticated`, with which it returns early. -/
def refused (s : UserParts τ) (uid : ℕ) (stage : AuthType) (curMono : ℕ) : Bool :=
  (s.members.bridgeTab uid).any (·.refuses stage curMono)

def step (s : UserParts τ) : Event → UserParts τ
  | .addUser nonce ibxLen ibxHash =>
    { s with
      link := s.link.addUser nonce
      members := s.members.addUser nonce
      keys := (s.keys.addUser nonce).1
      subs := s.subs.addUser ibxLen ibxHash }
  | .addAuthenticated uid stage curMono synced change session route now =>
    let refused := s.refused uid stage curMono
    -- the keys look for themselves who said bye
    let early := (s.members.bridgeTab uid).any (·.early stage curMono)
    { link := if refused then s.link else s.link.addAuthenticated uid
      members := s.members.addAuthenticated uid stage curMono synced change
      keys := s.keys.addAuthenticated (UInt32.ofNat uid) early
      queues := s.queues.addAuthenticated o uid { session with refused := refused } now
      subs := if refused then s.subs else s.subs.addAuthenticated kv uid route }
  | .removeAuthenticated uid bye stage curMono change =>
    { link := s.link.removeAuthenticated uid stage
      members := s.members.removeAuthenticated uid bye curMono change
      keys := s.keys.removeAuthenticated (UInt32.ofNat uid) (bye = .byeBye)
      queues := s.queues.removeAuthenticated o uid
      subs := s.subs.removeAuthenticated uid }
  | .linkState e => { s with link := s.link.step e }
  | .peerKey uid key => { s with keys := s.keys.setKey uid key }
  | .summary e => { s with members := s.members.step e }

/-- Uids have 32 bits, a user is added once, a peer that comes or goes is known, and none
comes with a bye. -/
def Legal (s : UserParts τ) : Event → Prop
  | .addUser nonce .. => s.members.nextUid < 2 ^ 32 ∧ s.members.roster.find nonce = none
  | .addAuthenticated uid stage .. => (s.members.bridgeTab uid).isSome ∧ stage ≠ .byeBye
  | .removeAuthenticated uid .. => (s.members.bridgeTab uid).isSome
  | .linkState e => UserDB.rosterOp e = none
  | .peerKey .. => True
  | .summary e => s.members.rosterOp e = none

variable {s : UserParts τ}

theorem Same.keysNext (h : s.Same) : s.keys.nextUid = s.members.nextUid :=
  congrArg Roster.nextId h.keys

theorem Same.addUser (h : s.Same) (nonce : Nonce) (ibxLen : ℕ) (ibxHash : UInt32)
    (hlt : s.members.nextUid < 2 ^ 32) : (s.step o kv (.addUser nonce ibxLen ibxHash)).Same := by
  have hroster := s.members.roster_addUser nonce
  have hkeys := h.keysNext.symm ▸ hlt
  constructor
  · show (s.link.addUser nonce).roster = (s.members.addUser nonce).roster
    rw [hroster, UserDB.roster_addUser, h.link]
  · show (s.keys.addUser nonce).1.roster = (s.members.addUser nonce).roster
    rw [hroster, PeerSession.NodeDB.roster_addUser _ _ hkeys, h.keys]
  · show (s.keys.addUser nonce).1.saidBye =
      fun uid => ((s.members.addUser nonce).lastAuth uid).map AuthType.isByeBye
    rw [PeerSession.NodeDB.saidBye_addUser _ _ hkeys, MemberDB.lastAuth_addUser, map_update,
      h.byeBye, h.keysNext]
    rfl
  · show ∀ {uid name st}, (s.members.addUser nonce).roster.member uid = some (name, st) → _
    rw [hroster]
    intro uid name st hm
    obtain ⟨rfl, rfl, rfl⟩ | ⟨-, hm⟩ := Roster.update_cases hm
    · exact (h.fresh le_rfl).2
    · exact h.queues hm
  · show (s.subs.addUser ibxLen ibxHash).active =
      fun uid => ((s.members.addUser nonce).roster.member uid).map (·.2.active)
    rw [hroster, AnyDB.active_addUser, h.subs, h.nextUid]
    exact (map_update (fun p : Nonce × Standing => p.2.active) s.members.roster.member
      s.members.nextUid (some (nonce, ⟨false, false⟩))).symm
  · show (s.subs.addUser ibxLen ibxHash).nextUid = s.members.nextUid + 1
    rw [← h.nextUid]
    exact List.length_append ..
  · intro uid huid
    have hle : s.members.nextUid + 1 ≤ uid := huid
    obtain ⟨hnone, hstanding⟩ := h.fresh (Nat.le_of_succ_le hle)
    refine ⟨?_, hstanding⟩
    exact (Function.update_of_ne (Nat.ne_of_gt hle) ..).trans hnone

/-- The peer, as the keys have it. -/
theorem Same.peer (h : s.Same) {uid : ℕ} {n : Member} (hn : s.members.bridgeTab uid = some n) :
    (UInt32.ofNat uid).toNat = uid ∧ ∃ p, s.keys.bridgeTab (UInt32.ofNat uid) = some p ∧
      p.entry = n.entry ∧ p.byeBye = n.lastAuthType.isByeBye := by
  have hm : s.keys.roster.member uid = some n.entry :=
    h.keys ▸ MemberDB.member_roster hn
  have hlt : uid < 2 ^ 32 := by
    by_contra hge
    exact Option.some_ne_none n.entry (hm.symm.trans (if_neg hge))
  have hnat := UInt32.toNat_ofNat_of_lt' hlt
  refine ⟨hnat, ?_⟩
  rw [← hnat, PeerSession.NodeDB.member_roster] at hm
  obtain ⟨p, hp, hentry⟩ := Option.map_eq_some_iff.1 hm
  refine ⟨p, hp, hentry, ?_⟩
  have hbye := congrFun h.byeBye uid
  rw [← hnat, PeerSession.NodeDB.saidBye, PeerSession.NodeDB.view_toNat, hp, hnat,
    MemberDB.lastAuth, MemberDB.view_of_some _ hn] at hbye
  exact Option.some.inj hbye

/-- The peer, as the subscriptions have it. -/
theorem Same.find (h : s.Same) {uid : ℕ} {n : Member} (hn : s.members.bridgeTab uid = some n) :
    ∃ a, s.subs.find uid = some a := by
  have hactive := congrFun h.subs uid
  rw [MemberDB.member_roster hn] at hactive
  obtain ⟨a, ha, -⟩ := Option.map_eq_some_iff.1 hactive
  exact ⟨a, ha⟩

/-- A uid that is not given out is no peer, whatever joins or leaves. -/
theorem Same.still_fresh (h : s.Same) {uid v : ℕ} {n : Member} {members : MemberDB}
    {st : Nonce × Standing} (hn : s.members.bridgeTab uid = some n)
    (hnext : members.nextUid = s.members.nextUid)
    (hmember : members.roster.member = Function.update s.members.roster.member uid (some st))
    (hv : members.nextUid ≤ v) :
    v ≠ uid ∧ members.bridgeTab v = none ∧ s.queues.standing v = ⟨false, false⟩ := by
  obtain ⟨hnone, hstanding⟩ := h.fresh (hnext ▸ hv)
  have hne : v ≠ uid := by
    rintro rfl
    exact Option.some_ne_none n (hn.symm.trans hnone)
  have hsame : members.roster.member v = none :=
    ((congrFun hmember v).trans (Function.update_of_ne hne ..)).trans
      (MemberDB.view_of_none Member.entry hnone)
  exact ⟨hne, Option.map_eq_none_iff.1 hsame, hstanding⟩

/-- The keys refuse whom the summaries refuse. -/
theorem refuses_keys {p : PeerSession.Peer} {n : Member} (hentry : p.entry = n.entry)
    (hbye : p.byeBye = n.lastAuthType.isByeBye) (stage : AuthType) (curMono : ℕ) :
    (p.zombie && (p.byeBye || n.early stage curMono)) = n.refuses stage curMono := by
  have hzombie : p.zombie = n.isSet .zombie := congrArg (fun e => e.2.away) hentry
  rw [Member.refuses_eq, hzombie, hbye]
  rfl

theorem Same.addAuthenticated (h : s.Same) {uid : ℕ} {stage : AuthType} {curMono : ℕ}
    {synced : List (ℕ × BitVec 32)} {change : Bool} {session : QueueDB.Session} {route : Bool}
    {now : ℕ}
    (hlegal : s.Legal (.addAuthenticated uid stage curMono synced change session route now)) :
    (s.step o kv (.addAuthenticated uid stage curMono synced change session route now)).Same := by
  obtain ⟨hsome, hstage⟩ := hlegal
  obtain ⟨n, hn⟩ := Option.isSome_iff_exists.1 hsome
  obtain ⟨hnat, p, hp, hentry, hbye⟩ := h.peer hn
  have hrefuses := refuses_keys hentry hbye stage curMono
  have hrefused : s.refused uid stage curMono = n.refuses stage curMono := by
    rw [refused, hn, Option.any_some]
  have hearly : (s.members.bridgeTab uid).any (·.early stage curMono) = n.early stage curMono := by
    rw [hn, Option.any_some]
  simp only [step, hrefused, hearly]
  rw [Bool.eq_iff_iff] at hrefuses
  cases hok : n.refuses stage curMono with
  | true =>
    -- no part changes
    have hmembers : s.members.addAuthenticated uid stage curMono synced change = s.members := by
      rw [MemberDB.addAuthenticated, hn]
      exact if_pos hok
    have hkeys : s.keys.addAuthenticated (UInt32.ofNat uid) (n.early stage curMono) = s.keys := by
      rw [PeerSession.NodeDB.addAuthenticated, hp]
      exact if_pos (hrefuses.2 hok)
    rw [hmembers, hkeys]
    exact h
  | false =>
    have hroster : (s.members.addAuthenticated uid stage curMono synced change).roster =
        s.members.roster.join uid := by
      rw [MemberDB.roster_addAuthenticated, hn, Option.any_some, hok]
      rfl
    have hmember : (s.members.roster.join uid).member =
        Function.update s.members.roster.member uid (some (n.nonce, ⟨true, false⟩)) := by
      rw [Roster.join_eq (MemberDB.member_roster hn)]
    have hkeysOk : (p.zombie && (p.byeBye || n.early stage curMono)) = false :=
      Bool.eq_false_iff.2 fun h => Bool.eq_false_iff.1 hok (hrefuses.1 h)
    have hnext : (s.members.addAuthenticated uid stage curMono synced change).nextUid =
        s.members.nextUid := (congrArg Roster.nextId hroster).trans (Roster.nextId_join ..)
    obtain ⟨a, ha⟩ := h.find hn
    constructor
    · show (s.link.addAuthenticated uid).roster = _
      rw [UserDB.roster_addAuthenticated, hroster, h.link]
    · show (s.keys.addAuthenticated _ _).roster = _
      rw [PeerSession.NodeDB.roster_addAuthenticated, hp, Option.any_some, hkeysOk, hnat, hroster,
        h.keys]
      rfl
    · show (s.keys.addAuthenticated _ _).saidBye = fun v => (MemberDB.lastAuth _ v).map _
      rw [PeerSession.NodeDB.saidBye_addAuthenticated hp hkeysOk, hnat,
        MemberDB.lastAuth_addAuthenticated hn hok, map_update, h.byeBye, Option.map_some,
        show stage.isByeBye = false from decide_eq_false hstage]
    · intro v name st hm
      show (s.queues.addAuthenticated o uid _ now).standing v = st
      rw [QueueDB.standing_addAuthenticated o _ _ _ _ rfl]
      obtain ⟨rfl, -, rfl⟩ | ⟨hne, hm⟩ := Roster.update_cases ((congrFun
        ((congrArg Roster.member hroster).trans hmember) v).symm.trans hm)
      · exact Function.update_self ..
      · exact (Function.update_of_ne hne ..).trans (h.queues hm)
    · show (s.subs.addAuthenticated kv uid route).active =
        fun v => (MemberDB.roster _ |>.member v).map (·.2.active)
      rw [hroster, hmember, AnyDB.active_addAuthenticated kv _ ha, map_update, h.subs]
      rfl
    · exact (s.subs.nextUid_addAuthenticated kv uid route).trans (h.nextUid.trans hnext.symm)
    · intro v hv
      obtain ⟨hne, hnone, hstanding⟩ := h.still_fresh hn hnext
        ((congrArg Roster.member hroster).trans hmember) hv
      refine ⟨hnone, ?_⟩
      show (s.queues.addAuthenticated o uid _ now).standing v = _
      rw [QueueDB.standing_addAuthenticated o _ _ _ _ rfl, Function.update_of_ne hne, hstanding]

theorem Same.removeAuthenticated (h : s.Same) {uid : ℕ} (bye : AuthType) (stage : Bye)
    (curMono : ℕ) (change : Bool) (hsome : (s.members.bridgeTab uid).isSome) :
    (s.step o kv (.removeAuthenticated uid bye stage curMono change)).Same := by
  obtain ⟨n, hn⟩ := Option.isSome_iff_exists.1 hsome
  obtain ⟨hnat, p, hp, -, -⟩ := h.peer hn
  obtain ⟨a, ha⟩ := h.find hn
  have hroster := s.members.roster_removeAuthenticated uid bye curMono change
  have hmember : (s.members.roster.leave uid).member =
      Function.update s.members.roster.member uid (some (n.nonce, ⟨false, true⟩)) := by
    rw [Roster.leave_eq (MemberDB.member_roster hn)]
  have hnext : (s.members.removeAuthenticated uid bye curMono change).nextUid =
      s.members.nextUid := (congrArg Roster.nextId hroster).trans (Roster.nextId_leave ..)
  constructor
  · show (s.link.removeAuthenticated uid stage).roster = _
    rw [UserDB.roster_removeAuthenticated, h.link]
    exact hroster.symm
  · show (s.keys.removeAuthenticated _ _).roster = _
    rw [PeerSession.NodeDB.roster_removeAuthenticated, hnat, h.keys]
    exact hroster.symm
  · show (s.keys.removeAuthenticated _ _).saidBye = fun v =>
      ((s.members.removeAuthenticated uid bye curMono change).lastAuth v).map AuthType.isByeBye
    rw [PeerSession.NodeDB.saidBye_removeAuthenticated hp, hnat,
      MemberDB.lastAuth_removeAuthenticated hn, map_update, h.byeBye]
    rfl
  · intro v name st hm
    show (s.queues.removeAuthenticated o uid).standing v = st
    rw [QueueDB.standing_removeAuthenticated]
    obtain ⟨rfl, -, rfl⟩ | ⟨hne, hm⟩ := Roster.update_cases ((congrFun
      ((congrArg Roster.member hroster).trans hmember) v).symm.trans hm)
    · exact Function.update_self ..
    · exact (Function.update_of_ne hne ..).trans (h.queues hm)
  · show (s.subs.removeAuthenticated uid).active =
      fun v =>
      ((s.members.removeAuthenticated uid bye curMono change).roster.member v).map (·.2.active)
    rw [hroster, hmember, AnyDB.active_removeAuthenticated _ ha, map_update, h.subs]
    rfl
  · exact (s.subs.nextUid_removeAuthenticated uid).trans (h.nextUid.trans hnext.symm)
  · intro v hv
    obtain ⟨hne, hnone, hstanding⟩ := h.still_fresh hn hnext
      ((congrArg Roster.member hroster).trans hmember) hv
    refine ⟨hnone, ?_⟩
    show (s.queues.removeAuthenticated o uid).standing v = _
    rw [QueueDB.standing_removeAuthenticated, Function.update_of_ne hne, hstanding]

/-- The summaries have moved, but not their peers. -/
theorem Same.of_still (h : s.Same) {members : MemberDB} (hstill : s.members.Still members) :
    ({ s with members := members } : UserParts τ).Same := by
  have hnext : members.nextUid = s.members.nextUid := congrArg Roster.nextId hstill.roster
  constructor
  · exact h.link.trans hstill.roster.symm
  · exact h.keys.trans hstill.roster.symm
  · rw [hstill.lastAuth]
    exact h.byeBye
  · rw [hstill.roster]
    exact h.queues
  · rw [hstill.roster]
    exact h.subs
  · exact h.nextUid.trans hnext.symm
  · intro v hv
    obtain ⟨hnone, hstanding⟩ := h.fresh (hnext ▸ hv)
    refine ⟨?_, hstanding⟩
    have hsame : members.roster.member v = none :=
      (congrFun (congrArg Roster.member hstill.roster) v).trans
        (MemberDB.view_of_none Member.entry hnone)
    exact Option.map_eq_none_iff.1 hsame

theorem Same.step (h : s.Same) {e : Event} (hlegal : s.Legal e) : (s.step o kv e).Same := by
  cases e with
  | addUser nonce ibxLen ibxHash => exact h.addUser o kv nonce ibxLen ibxHash hlegal.1
  | addAuthenticated uid stage curMono synced change session route now =>
    exact h.addAuthenticated o kv hlegal
  | removeAuthenticated uid bye stage curMono change =>
    exact h.removeAuthenticated o kv bye stage curMono change hlegal
  | linkState e =>
    have hroster : (s.link.step e).roster = s.link.roster := by
      rw [UserDB.roster_step, show UserDB.rosterOp e = none from hlegal]
      rfl
    exact ⟨hroster.trans h.link, h.keys, h.byeBye, h.queues, h.subs, h.nextUid, h.fresh⟩
  | peerKey uid key =>
    have hbye := PeerSession.NodeDB.view_setKey PeerSession.Peer.byeBye s.keys uid key fun _ => rfl
    exact ⟨h.link, (PeerSession.NodeDB.roster_setKey s.keys uid key).trans h.keys,
      hbye.trans h.byeBye,
      h.queues, h.subs, h.nextUid, h.fresh⟩
  | summary e => exact h.of_still (MemberDB.still_step hlegal)

def init (t : HashTab τ PeerKeyHash ℕ) (nonce : Nonce) : UserParts τ :=
  ⟨UserDB.init nonce, MemberDB.init nonce, PeerSession.NodeDB.init t nonce, QueueDB.init,
    AnyDB.init⟩

theorem same_init (t : HashTab τ PeerKeyHash ℕ) (nonce : Nonce) :
    (init t nonce).Same := by
  have hview : ∀ {α : Type} (g : PeerSession.Peer → α),
      (PeerSession.NodeDB.init t nonce).view g = fun _ => none := by
    intro α g
    ext id : 1
    exact ite_self _
  constructor
  · rfl
  · refine Roster.ext rfl ?_ rfl (hview PeerSession.Peer.entry)
    exact map_update UInt32.toNat _ nonce (some PeerKeys.myUid)
  · exact hview PeerSession.Peer.byeBye
  · intro uid name st hm
    cases hm
  · ext uid : 1
    cases uid <;> rfl
  · rfl
  · intro uid _
    exact ⟨rfl, rfl⟩

/-- What a step does to the peers is an operation of the roster, or nothing. -/
theorem sound_step (h : s.members.roster.Sound) {e : Event} (hlegal : s.Legal e) :
    (s.step o kv e).members.roster.Sound := by
  cases e with
  | addUser nonce ibxLen ibxHash =>
    show (s.members.addUser nonce).roster.Sound
    rw [MemberDB.roster_addUser]
    exact h.step (e := .enter nonce) hlegal.2
  | addAuthenticated uid stage curMono synced change session route now =>
    show (s.members.addAuthenticated uid stage curMono synced change).roster.Sound
    rw [MemberDB.roster_addAuthenticated]
    split
    · exact h
    · exact h.step (e := .join uid) trivial
  | removeAuthenticated uid bye stage curMono change =>
    show (s.members.removeAuthenticated uid bye curMono change).roster.Sound
    rw [MemberDB.roster_removeAuthenticated]
    exact h.step (e := .leave uid) trivial
  | linkState e => exact h
  | peerKey uid key => exact h
  | summary e =>
    show (s.members.step e).roster.Sound
    rwa [(MemberDB.still_step hlegal).roster]

/-- In every state of every run the parts have the same peers: each is found under its
bridge id in the table that its state says, and no zombie is authenticated. -/
theorem same_of_reach {t : HashTab τ PeerKeyHash ℕ} {nonce : Nonce}
    (h : Run.Reach (step o kv) Legal (init t nonce) s) : s.Same ∧ s.members.roster.Sound := by
  constructor
  · exact h.invariant (same_init t nonce) fun _ _ hsame hlegal => hsame.step o kv hlegal
  · exact @Run.Reach.invariant _ _ _ _ _ (fun s : UserParts τ => s.members.roster.Sound)
      (Roster.sound_of_empty fun _ => rfl)
      (fun _ _ hsound hlegal => sound_step o kv hsound hlegal) _ h

end UserParts

/-! ## A challenge, for the handshake and for the keys -/

namespace AuthBridge

open PeerSession PeerKeys

variable {ν π σ δ β : Type} {τ : Type*} {c : AuthCrypt ν Digest π σ δ β}
  {d : AuthDB ν Digest π δ} {m : AuthMsg ν Digest π β} {n : AuthBridge ν Digest π δ} {p : Peer}

/-- The handshake and the keys have the same key of the peer, and the same standing. -/
structure Agrees (n : AuthBridge ν Digest π δ) (p : Peer) : Prop where
  peerKey : n.peerKey = p.peerKey
  authenticated : n.authenticated = p.authenticated
  byeBye : n.byeBye = (p.zombie && p.byeBye)

/-- `ch` is what the keys see of the message: the key it carries, if its signature is right
and which key its digest is made with. -/
structure Reads (c : AuthCrypt ν Digest π σ δ β) (d : AuthDB ν Digest π δ)
    (m : AuthMsg ν Digest π β) (n : AuthBridge ν Digest π δ) (f : AuthFields ν π) (stage : ℕ)
    (ch : PeerSession.Challenge) (mine : Digest) : Prop where
  key : n.carriedKey c d m f n.auth0 stage = decryptHash mine ch.authKey
  sig : n.sigOk c d m = ch.verifySig
  digest : c.verify (decryptHash mine ch.authKey) m.toAuthContent m.body = true ↔
    decryptHash mine ch.authKey = ch.signed

theorem challenged_authenticated (n : AuthBridge ν Digest π δ) (f : AuthFields ν π)
    (stage now : ℕ) (cnonce : ν) :
    (n.challenged c d m f stage now cnonce).1.authenticated = (n.authenticated || !n.byeBye) ∧
      (n.challenged c d m f stage now cnonce).1.byeBye = n.byeBye := by
  have hadd : (if n.authenticated then n else n.addAuthenticated).authenticated =
        (n.authenticated || !n.byeBye) ∧
      (if n.authenticated then n else n.addAuthenticated).byeBye = n.byeBye := by
    unfold addAuthenticated
    cases ha : n.authenticated <;> cases hb : n.byeBye <;> simp [ha, hb]
  unfold challenged
  generalize (if n.authenticated then n else n.addAuthenticated) = n₁ at hadd ⊢
  dsimp only
  split
  · dsimp only
    split <;> exact hadd
  · exact hadd

/-- The peer that the keys have after `add_authenticated`. -/
theorem bridgeTab_addAuthenticated {db : PeerSession.NodeDB τ} {uid : UInt32}
    (hp : db.bridgeTab uid = some p) :
    (db.addAuthenticated uid false).bridgeTab uid =
      some (if p.zombie && p.byeBye then p
        else { p with authenticated := true, zombie := false, byeBye := false }) := by
  rw [PeerSession.NodeDB.addAuthenticated, hp]
  dsimp only
  rw [Bool.or_false]
  split
  · exact hp
  · split <;> exact put_self uid _

/-- A challenge does the same to both: the key that a wrong signature leaves, the key that
is put back, and a peer that is authenticated. -/
theorem Agrees.challenge (h : n.Agrees p) {f : AuthFields ν π} {stage now : ℕ} {cnonce : ν}
    {ch : PeerSession.Challenge} {mine : Digest} (hreads : n.Reads c d m f stage ch mine)
    {db : PeerSession.NodeDB τ} {uid : UInt32} (hfind : db.find ch.src = some uid)
    (hp : db.bridgeTab uid = some p) :
    ∃ p', (db.recvChallenge ch mine false).bridgeTab uid = some p' ∧
      (n.challenge c d m f stage now cnonce).1.Agrees p' := by
  have hsig : ({ n with hbPubkey := f.pubkey } : AuthBridge ν Digest π δ).sigOk c d m =
      ch.verifySig := hreads.sig
  have hkeyed := setKey_self hp (decryptHash mine ch.authKey)
  rw [PeerSession.NodeDB.recvChallenge, hfind]
  dsimp only
  rw [hp]
  dsimp only
  cases hv : ch.verifySig with
  | false =>
    -- the key stays although the signature is wrong
    have hrec : n.recvChallenge c d m f stage =
        ({ n with hbPubkey := f.pubkey, peerKey := decryptHash mine ch.authKey }, false) := by
      simp only [recvChallenge, hsig, hreads.key, hv, if_true]
    rw [AuthBridge.challenge, hrec]
    exact ⟨_, hkeyed, rfl, h.authenticated, h.byeBye⟩
  | true =>
    by_cases hdigest : decryptHash mine ch.authKey = ch.signed
    · have hrec : n.recvChallenge c d m f stage =
          ({ n with hbPubkey := f.pubkey, peerKey := decryptHash mine ch.authKey }, true) := by
        simp only [recvChallenge, hsig, hreads.key, hv, hreads.digest.2 hdigest]
        rfl
      obtain ⟨hauth, hbye⟩ := challenged_authenticated (c := c) (d := d) (m := m)
        { n with hbPubkey := f.pubkey, peerKey := decryptHash mine ch.authKey } f stage now cnonce
      have hkey : (({ n with hbPubkey := f.pubkey, peerKey := decryptHash mine ch.authKey } :
          AuthBridge ν Digest π δ).challenged c d m f stage now cnonce).1.peerKey =
            decryptHash mine ch.authKey := challenged_peerKey _ f stage now cnonce
      rw [AuthBridge.challenge, hrec, if_neg (show ¬ (!true) = true by decide),
        if_neg (not_not.2 hdigest), if_pos rfl]
      cases ha : p.authenticated with
      | true =>
        refine ⟨_, hkeyed, hkey, ?_, hbye.trans h.byeBye⟩
        rw [hauth, show n.authenticated = true from h.authenticated.trans ha]
        exact ha.symm
      | false =>
        refine ⟨_, bridgeTab_addAuthenticated hkeyed, ?_⟩
        have hmarks : (n.authenticated || !n.byeBye) = !(p.zombie && p.byeBye) := by
          rw [h.authenticated, ha, h.byeBye, Bool.false_or]
        dsimp only
        cases hb : p.zombie && p.byeBye with
        | true =>
          rw [hb] at hmarks
          exact ⟨hkey, (hauth.trans hmarks).trans ha.symm, hbye.trans h.byeBye⟩
        | false =>
          rw [hb] at hmarks
          exact ⟨hkey, hauth.trans hmarks, hbye.trans (h.byeBye.trans hb)⟩
    · have hrec : n.recvChallenge c d m f stage = ({ n with hbPubkey := f.pubkey }, false) := by
        have hver := Bool.eq_false_iff.2 fun h => hdigest (hreads.digest.1 h)
        simp only [recvChallenge, hsig, hreads.key, hv, hver]
        rfl
      rw [AuthBridge.challenge, hrec, if_pos hdigest, setKey_setKey hp]
      exact ⟨p, hp, h.peerKey, h.authenticated, h.byeBye⟩

end AuthBridge

end Raims
