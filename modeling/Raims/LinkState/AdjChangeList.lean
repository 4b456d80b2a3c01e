import Raims.LinkState.SourceRoute
import Raims.LinkState.UserDB
import Raims.Lib.Coalesce

/-!
# What the queued changes tell the peers (`AdjChangeList`)

Between two messages each link may come and go any number of times. Only the
first record of each kind is queued, so the queue tells the peers the truth about
a link unless it changed an odd number of times, and three times or more.
-/

namespace Raims

open Coalesce

namespace SourceRoutes

/-! ## Runs between two messages -/

/-- What changes the routes. `setRoute` is the part of `add_user_route` and
`find_inbox_peer` that gives a route its socket and hops, `setSock` a socket that
opens or closes. -/
inductive RouteEvent where
  | pushSourceRoute (uid : ℕ)
  | popSourceRoute (uid : ℕ)
  | pushUserRoute (uid t : ℕ)
  | popUserRoute (uid t : ℕ)
  | setConnectedUserRoute (uid t : ℕ)
  | setRoute (uid t : ℕ) (mcast : PeerId) (hops : ℕ)
  | setSock (fd : ℕ) (pid : Option PeerId)

def step (s : SourceRoutes) : RouteEvent → SourceRoutes
  | .pushSourceRoute uid => s.pushSourceRoute uid
  | .popSourceRoute uid => s.popSourceRoute uid
  | .pushUserRoute uid t => s.pushUserRoute uid t
  | .popUserRoute uid t => s.popUserRoute uid t
  | .setConnectedUserRoute uid t => s.setConnectedUserRoute uid t
  | .setRoute uid t mcast hops =>
    s.modifyRoute uid t fun r => { r.connected hops with mcast := mcast }
  | .setSock fd pid => { s with sock := Function.update s.sock fd pid }

/-- The peers that transport `t` connects. -/
def uidConnected (s : SourceRoutes) (t : ℕ) : Finset ℕ :=
  (s.transportTab t).uidConnected.members

/-- The number of times that the link to `uid` on transport `t` comes or goes. -/
def flaps (uid t : ℕ) : SourceRoutes → List RouteEvent → ℕ
  | _, [] => 0
  | s, e :: es =>
    (if uid ∈ (s.step e).uidConnected t ↔ uid ∈ s.uidConnected t then 0 else 1) +
      flaps uid t (s.step e) es

end SourceRoutes

/-- One queued record applied to the connected peers of each transport. -/
def AdjChange.apply (conn : ℕ → Finset ℕ) (p : AdjChange) : ℕ → Finset ℕ :=
  Function.update conn p.tportid
    (if p.add then insert p.uid (conn p.tportid) else (conn p.tportid).erase p.uid)

/-- The queued records applied in order. -/
def applyChanges (list : List AdjChange) (conn : ℕ → Finset ℕ) : ℕ → Finset ℕ :=
  list.foldl AdjChange.apply conn

/-! ## The records of one link -/

/-- The records of the link to `uid` on transport `t`. -/
def changesOf (uid t : ℕ) (list : List AdjChange) : List Bool :=
  (list.filter fun p => p.uid = uid ∧ p.tportid = t).map AdjChange.add

theorem mem_changesOf {uid t : ℕ} {list : List AdjChange} {b : Bool} :
    b ∈ changesOf uid t list ↔ ∃ q ∈ list, q.uid = uid ∧ q.tportid = t ∧ q.add = b := by
  simp [changesOf, and_assoc]

theorem changesOf_appendChange_self (list : List AdjChange) (p : AdjChange) :
    changesOf p.uid p.tportid (appendChange list p) =
      enqueue (changesOf p.uid p.tportid list) p.add := by
  simp only [appendChange, enqueue, mem_changesOf]
  split
  · rfl
  · simp [changesOf]

theorem changesOf_appendChange_of_ne {uid t : ℕ} {list : List AdjChange} {p : AdjChange}
    (h : (uid, t) ≠ (p.uid, p.tportid)) :
    changesOf uid t (appendChange list p) = changesOf uid t list := by
  have hp : ¬ (p.uid = uid ∧ p.tportid = t) := by
    rintro ⟨rfl, rfl⟩
    exact h rfl
  simp only [appendChange]
  split
  · rfl
  · simp [changesOf, hp]

theorem mem_apply_iff (conn : ℕ → Finset ℕ) (p : AdjChange) (uid t : ℕ) :
    uid ∈ p.apply conn t ↔
      if p.uid = uid ∧ p.tportid = t then p.add = true else uid ∈ conn t := by
  by_cases ht : p.tportid = t
  · subst ht
    by_cases hu : p.uid = uid
    · subst hu
      cases hadd : p.add <;> simp [AdjChange.apply, hadd]
    · have hne : uid ≠ p.uid := fun h => hu h.symm
      cases hadd : p.add <;> simp [AdjChange.apply, hadd, hu, hne]
  · have hne : t ≠ p.tportid := fun h => ht h.symm
    simp [AdjChange.apply, ht, hne]

/-- The last record of a link decides it. -/
theorem mem_applyChanges_iff (list : List AdjChange) (conn : ℕ → Finset ℕ) (uid t : ℕ) :
    uid ∈ applyChanges list conn t ↔
      replay (changesOf uid t list) (decide (uid ∈ conn t)) = true := by
  induction list generalizing conn with
  | nil => simp [applyChanges, changesOf, replay]
  | cons p list ih =>
    show uid ∈ applyChanges list (p.apply conn) t ↔ _
    rw [ih]
    by_cases hp : p.uid = uid ∧ p.tportid = t
    · simp [mem_apply_iff, hp, changesOf, replay]
    · simp [mem_apply_iff, hp, changesOf, replay]

/-! ## What an operation does to the links -/

namespace SourceRoutes

/-- The link to `uid` on transport `t`, and its queued records. -/
def linkFlag (s : SourceRoutes) (uid t : ℕ) : Flag :=
  ⟨decide (uid ∈ s.uidConnected t), changesOf uid t s.adjacencyChange⟩

/-- Nothing that the peers are told of has changed. -/
def SameLinks (s s' : SourceRoutes) : Prop :=
  s'.uidConnected = s.uidConnected ∧ s'.adjacencyChange = s.adjacencyChange

/-- At most the link to `uid` on transport `t` has changed, and at most once. -/
structure FlipsAt (uid t : ℕ) (s s' : SourceRoutes) : Prop where
  frame : ∀ u t', (u, t') ≠ (uid, t) → s'.linkFlag u t' = s.linkFlag u t'
  flip : s'.linkFlag uid t = s.linkFlag uid t ∨
    s'.linkFlag uid t = toggle (s.linkFlag uid t)

section Links

variable {s s' s'' : SourceRoutes} {uid t : ℕ}

theorem SameLinks.linkFlag (h : SameLinks s s') (u t : ℕ) :
    s'.linkFlag u t = s.linkFlag u t := by
  simp only [SourceRoutes.linkFlag, h.1, h.2]

theorem SameLinks.trans (h : SameLinks s s') (h' : SameLinks s' s'') : SameLinks s s'' :=
  ⟨h'.1.trans h.1, h'.2.trans h.2⟩

theorem SameLinks.flipsAt (h : SameLinks s s') (uid t : ℕ) : FlipsAt uid t s s' :=
  ⟨fun u t' _ => h.linkFlag u t', .inl (h.linkFlag uid t)⟩

theorem FlipsAt.after (h : FlipsAt uid t s' s'') (hs : SameLinks s s') :
    FlipsAt uid t s s'' := by
  refine ⟨fun u t' hne => (h.frame u t' hne).trans (hs.linkFlag u t'), ?_⟩
  rw [← hs.linkFlag uid t]
  exact h.flip

theorem FlipsAt.before (h : FlipsAt uid t s s') (hs : SameLinks s' s'') :
    FlipsAt uid t s s'' := by
  refine ⟨fun u t' hne => (hs.linkFlag u t').trans (h.frame u t' hne), ?_⟩
  rw [hs.linkFlag uid t]
  exact h.flip

theorem sameLinks_refl (s : SourceRoutes) : SameLinks s s := ⟨rfl, rfl⟩

theorem sameLinks_modifyRoute (f : UserRoute → UserRoute) :
    SameLinks s (s.modifyRoute uid t f) := ⟨rfl, rfl⟩

theorem sameLinks_modifyList (fd : ℕ) (f : UserRouteList → UserRouteList) :
    SameLinks s (s.modifyList fd f) := ⟨rfl, rfl⟩

theorem sameLinks_modifyTport {f : TransportRoute → TransportRoute}
    (hf : ∀ r, (f r).uidConnected.members = r.uidConnected.members) :
    SameLinks s (s.modifyTport t f) := by
  refine ⟨?_, rfl⟩
  funext t'
  by_cases h : t' = t
  · subst h
    simp [uidConnected, modifyTport, hf]
  · simp [uidConnected, modifyTport, h]

theorem sameLinks_refShared : SameLinks s (s.refShared uid t) := by
  simp only [refShared]
  split <;> exact ⟨rfl, rfl⟩

theorem sameLinks_derefShared : SameLinks s (s.derefShared uid t) := by
  simp only [derefShared]
  split <;> exact ⟨rfl, rfl⟩

theorem sameLinks_refSysRoute (fd : ℕ) : SameLinks s (s.refSysRoute t fd) := by
  simp only [refSysRoute]
  split
  · exact (sameLinks_modifyList fd _).trans (sameLinks_modifyTport fun _ => rfl)
  · exact sameLinks_modifyList fd _

theorem sameLinks_derefSysRoute (fd : ℕ) : SameLinks s (s.derefSysRoute t fd) := by
  simp only [derefSysRoute]
  split
  · exact (sameLinks_modifyList fd _).trans (sameLinks_modifyTport fun _ => rfl)
  · exact sameLinks_modifyList fd _

theorem sameLinks_addOldest : SameLinks s (s.addOldest uid t) := by
  simp only [addOldest]
  split
  · exact sameLinks_modifyTport fun _ => rfl
  · exact sameLinks_refl s

theorem sameLinks_removeOldest : SameLinks s (s.removeOldest uid t) := by
  simp only [removeOldest]
  split
  · exact sameLinks_modifyTport fun _ => rfl
  · exact sameLinks_refl s

/-- A set whose members changed at `uid`, and the record of that, is one change of
the link. -/
theorem flipsAt_of_change {b : Bool} {n : ℕ}
    (hframe : ∀ t', t' ≠ t → s'.uidConnected t' = s.uidConnected t')
    (hmem : ∀ u, u ≠ uid → (u ∈ s'.uidConnected t ↔ u ∈ s.uidConnected t))
    (hold : decide (uid ∈ s.uidConnected t) = !b) (hnew : decide (uid ∈ s'.uidConnected t) = b)
    (hlist : s'.adjacencyChange = appendChange s.adjacencyChange ⟨uid, t, n, b⟩) :
    FlipsAt uid t s s' := by
  refine ⟨fun u t' hne => ?_, .inr ?_⟩
  · have hon : u ∈ s'.uidConnected t' ↔ u ∈ s.uidConnected t' := by
      by_cases ht : t' = t
      · subst ht
        exact hmem u fun hu => hne (by rw [hu])
      · rw [hframe t' ht]
    simp only [linkFlag, hlist, hon, changesOf_appendChange_of_ne (p := ⟨uid, t, n, b⟩) hne]
  · have hq := changesOf_appendChange_self s.adjacencyChange ⟨uid, t, n, b⟩
    simp only at hq
    simp only [linkFlag, toggle, hold, hnew, hlist, hq, Bool.not_not]

theorem flipsAt_connectUid : FlipsAt uid t s (s.connectUid uid t) := by
  by_cases hmem : uid ∈ (s.transportTab t).uidConnected.members
  · simp only [connectUid, hmem, if_true]
    exact (sameLinks_refl s).flipsAt uid t
  · refine flipsAt_of_change (b := true) (n := s.linkStateSeqno + 1) ?_ ?_ ?_ ?_ ?_
    · intro t' ht
      simp [connectUid, hmem, uidConnected, modifyTport, ht]
    · intro u hu
      simp [connectUid, hmem, uidConnected, modifyTport, hu]
    · simp [uidConnected, hmem]
    · simp [connectUid, hmem, uidConnected, modifyTport]
    · simp [connectUid, hmem]

theorem flipsAt_disconnectUid : FlipsAt uid t s (s.disconnectUid uid t) := by
  by_cases hmem : uid ∈ (s.transportTab t).uidConnected.members
  · refine flipsAt_of_change (b := false) (n := s.linkStateSeqno + 1) ?_ ?_ ?_ ?_ ?_
    · intro t' ht
      simp [disconnectUid, hmem, uidConnected, modifyTport, ht]
    · intro u hu
      simp [disconnectUid, hmem, uidConnected, modifyTport, hu]
    · simp [uidConnected, hmem]
    · simp [disconnectUid, hmem, uidConnected, modifyTport]
    · simp [disconnectUid, hmem]
  · simp only [disconnectUid, hmem, not_false_eq_true, if_true]
    exact (sameLinks_refl s).flipsAt uid t

theorem flipsAt_pushConnectedUserRoute : FlipsAt uid t s (s.pushConnectedUserRoute uid t) := by
  have hconn : FlipsAt uid t s ((s.refShared uid t).connectUid uid t) :=
    flipsAt_connectUid.after sameLinks_refShared
  exact (hconn.before (sameLinks_refSysRoute _)).before sameLinks_addOldest

theorem flipsAt_pushUserRoute : FlipsAt uid t s (s.pushUserRoute uid t) := by
  simp only [pushUserRoute]
  split
  · exact (sameLinks_refl s).flipsAt uid t
  · split
    · exact (sameLinks_refl s).flipsAt uid t
    · split
      · exact flipsAt_pushConnectedUserRoute.after
          ((sameLinks_modifyRoute _).trans (sameLinks_modifyList _ _))
      · exact ((sameLinks_modifyRoute _).trans (sameLinks_modifyList _ _)).flipsAt uid t

theorem flipsAt_setConnectedUserRoute : FlipsAt uid t s (s.setConnectedUserRoute uid t) := by
  simp only [setConnectedUserRoute]
  split
  · exact (sameLinks_refl s).flipsAt uid t
  · split
    · exact flipsAt_pushUserRoute
    · split
      · exact (sameLinks_refl s).flipsAt uid t
      · refine flipsAt_pushConnectedUserRoute.after (SameLinks.trans ?_ (sameLinks_modifyRoute _))
        split <;> exact ⟨rfl, rfl⟩

theorem flipsAt_popUserRoute : FlipsAt uid t s (s.popUserRoute uid t) := by
  simp only [popUserRoute]
  split
  · split
    · -- the link goes between changes that no peer is told of
      refine FlipsAt.before ?_ (sameLinks_modifyRoute _)
      refine FlipsAt.before ?_ sameLinks_removeOldest
      refine FlipsAt.before ?_ (sameLinks_derefSysRoute _)
      refine flipsAt_disconnectUid.after (SameLinks.trans ?_ sameLinks_derefShared)
      exact (sameLinks_modifyRoute _).trans (sameLinks_modifyList _ _)
    · exact (((sameLinks_modifyRoute _).trans (sameLinks_modifyList _ _)).trans
        (sameLinks_modifyRoute _)).flipsAt uid t
  · exact (sameLinks_refl s).flipsAt uid t

theorem flipsAt_pushSourceStep : FlipsAt uid t s (s.pushSourceStep uid t) := by
  simp only [pushSourceStep]
  split
  · split
    · exact flipsAt_pushUserRoute
    · exact flipsAt_popUserRoute
  · exact (sameLinks_refl s).flipsAt uid t

theorem flipsAt_popSourceStep : FlipsAt uid t s (s.popSourceStep uid t) := by
  simp only [popSourceStep]
  split
  · exact flipsAt_popUserRoute
  · exact (sameLinks_refl s).flipsAt uid t

end Links

/-! ## What a run does to a link -/

/-- A link stays as it is or changes once. -/
def Flips (s s' : SourceRoutes) (u t : ℕ) : Prop :=
  s'.linkFlag u t = s.linkFlag u t ∨ s'.linkFlag u t = toggle (s.linkFlag u t)

theorem FlipsAt.flips {s s' : SourceRoutes} {uid t : ℕ} (h : FlipsAt uid t s s') (u t' : ℕ) :
    Flips s s' u t' := by
  by_cases hne : (u, t') = (uid, t)
  · obtain ⟨rfl, rfl⟩ := Prod.mk.inj hne
    exact h.flip
  · exact .inl (h.frame u t' hne)

/-- A loop over the transports comes to each link once. -/
theorem flips_loop {body : SourceRoutes → ℕ → SourceRoutes} {uid : ℕ}
    (hbody : ∀ s i, FlipsAt uid i s (body s i)) (s : SourceRoutes) (n u t : ℕ) :
    Flips s ((List.range n).foldl body s) u t ∧
      (n ≤ t → ((List.range n).foldl body s).linkFlag u t = s.linkFlag u t) := by
  induction n with
  | zero => exact ⟨.inl rfl, fun _ => rfl⟩
  | succ n ih =>
    obtain ⟨ihflip, ihsame⟩ := ih
    rw [List.range_succ, List.foldl_append]
    show Flips s (body ((List.range n).foldl body s) n) u t ∧
      (n + 1 ≤ t → (body ((List.range n).foldl body s) n).linkFlag u t = s.linkFlag u t)
    have hb := hbody ((List.range n).foldl body s) n
    constructor
    · by_cases hlt : n ≤ t
      · have h := hb.flips u t
        simp only [Flips, ihsame hlt] at h
        exact h
      · have hne : (u, t) ≠ (uid, n) := by
          intro h
          have := (Prod.mk.inj h).2
          omega
        simp only [Flips, hb.frame u t hne]
        exact ihflip
    · intro hlt
      have hne : (u, t) ≠ (uid, n) := by
        intro h
        have := (Prod.mk.inj h).2
        omega
      rw [hb.frame u t hne]
      exact ihsame (by omega)

theorem flips_step (s : SourceRoutes) (e : RouteEvent) (u t : ℕ) : Flips s (s.step e) u t := by
  cases e with
  | pushSourceRoute uid => exact (flips_loop (fun _ _ => flipsAt_pushSourceStep) s _ u t).1
  | popSourceRoute uid => exact (flips_loop (fun _ _ => flipsAt_popSourceStep) s _ u t).1
  | pushUserRoute uid t' => exact flipsAt_pushUserRoute.flips u t
  | popUserRoute uid t' => exact flipsAt_popUserRoute.flips u t
  | setConnectedUserRoute uid t' => exact flipsAt_setConnectedUserRoute.flips u t
  | setRoute uid t' mcast hops => exact .inl rfl
  | setSock fd pid => exact .inl rfl

/-- A run changes a link as often as it flaps. -/
theorem linkFlag_foldl (es : List RouteEvent) (s : SourceRoutes) (u t : ℕ) :
    (es.foldl step s).linkFlag u t = toggle^[flaps u t s es] (s.linkFlag u t) := by
  induction es generalizing s with
  | nil => rfl
  | cons e es ih =>
    rw [List.foldl_cons, ih, flaps, Nat.add_comm, Function.iterate_add_apply]
    congr 1
    have hon (s : SourceRoutes) : u ∈ s.uidConnected t ↔ (s.linkFlag u t).on = true := by
      simp [linkFlag]
    rcases flips_step s e u t with h | h
    · simp [hon, h]
    · have htog : (toggle (s.linkFlag u t)).on = !(s.linkFlag u t).on := rfl
      rw [if_neg (by simp [hon, h, htog])]
      exact h

/-! ## The changes between two messages -/

/-- The queued records, applied in order to the links that were last sent, give
the links there are. -/
def ChangesTellLinks (sent now : SourceRoutes) : Prop :=
  applyChanges now.adjacencyChange sent.uidConnected = now.uidConnected

theorem changesTellLinks_iff (sent now : SourceRoutes) :
    ChangesTellLinks sent now ↔
      ∀ u t, replay (now.linkFlag u t).queue (sent.linkFlag u t).on = (now.linkFlag u t).on := by
  simp only [ChangesTellLinks, linkFlag]
  constructor
  · intro h u t
    rw [Bool.eq_iff_iff, ← mem_applyChanges_iff, h, decide_eq_true_iff]
  · intro h
    funext t
    ext u
    rw [mem_applyChanges_iff, h u t, decide_eq_true_iff]

/-! ## The message at a peer -/

section Peer

variable {find : UidTable} {me : ℕ} {ren : ℕ → ℕ} (s : SourceRoutes)

/-- The peer at the other end knows the bridge of the record, by the uid `ren`. -/
def Knows (find : UidTable) (me : ℕ) (ren : ℕ → ℕ) (s : SourceRoutes) (p : AdjChange) : Prop :=
  find ((s.bridgeTab p.uid).elim s.nonce PeerBridge.nonce) = some (ren p.uid) ∧ ren p.uid ≠ me

theorem members_apply_adjacencyRec (hren : Function.Injective ren) {p : AdjChange}
    (hp : Knows find me ren s p) (last : Option ℕ) {tab : AdjacencyTab} {conn : ℕ → Finset ℕ}
    (htab : ∀ t, UserBridge.members tab t = (conn t).image ren) (t : ℕ) :
    UserBridge.members (tab.apply find me (s.adjacencyRec last p)) t =
      (p.apply conn t).image ren := by
  rw [AdjacencyTab.apply_of_tportid tab (t := p.tportid) rfl]
  by_cases ht : t = p.tportid
  · subst ht
    have hmem : ((s.adjacencyRec last p).touch me p.tportid (tab.ptr p.tportid)).members =
        (conn p.tportid).image ren := by
      rw [← htab p.tportid]
      cases h : tab.ptr p.tportid <;> simp [AdjacencyRec.touch, UserBridge.members, h,
        AdjacencySpace.new]
    have hop : (s.adjacencyRec last p).memberOp find me =
        if p.add then .add (ren p.uid) ((s.adjacencyRec last p).remEnd find (ren p.uid))
        else .remove (ren p.uid) := by
      have hnonce : (s.adjacencyRec last p).nonce.bind find = some (ren p.uid) := hp.1
      simp only [AdjacencyRec.memberOp, hnonce, if_neg hp.2]
      rfl
    simp only [UserBridge.members, AdjacencyTab.ptr_put_self, Option.map_some, Option.getD_some, hop,
      AdjChange.apply, Function.update_self]
    cases p.add
    · simp [MemberOp.run, hmem, Finset.image_erase hren]
    · cases (s.adjacencyRec last p).remEnd find (ren p.uid) <;>
        simp [MemberOp.run, hmem, Finset.image_insert]
  · rw [UserBridge.members, AdjacencyTab.ptr_put_ne tab ht]
    simp only [AdjChange.apply, Function.update_of_ne ht]
    exact htab t

/-- A peer that applies the records of the message does to its copy of the links
what the queued changes do to them. -/
theorem members_foldl_adjacencyRecs (hren : Function.Injective ren) (list : List AdjChange)
    (hlist : ∀ p ∈ list, Knows find me ren s p) (last : Option ℕ) {tab : AdjacencyTab}
    {conn : ℕ → Finset ℕ} (htab : ∀ t, UserBridge.members tab t = (conn t).image ren) (t : ℕ) :
    UserBridge.members ((s.adjacencyRecs last list).foldl (AdjacencyTab.apply find me) tab) t =
      (applyChanges list conn t).image ren := by
  induction list generalizing last tab conn with
  | nil => exact htab t
  | cons p list ih =>
    simp only [adjacencyRecs, applyChanges, List.foldl_cons]
    have hp := hlist p (by simp)
    exact ih (fun q hq => hlist q (by simp [hq])) (some p.tportid)
      (members_apply_adjacencyRec s hren hp last htab)

end Peer

/-- Every peer that holds the links last sent, and knows the bridges of the changes, holds the
links there are once it has applied the message. -/
def PeersFollow (sent now : SourceRoutes) : Prop :=
  ∀ (find : UidTable) (me : ℕ) (ren : ℕ → ℕ) (tab : AdjacencyTab), Function.Injective ren →
    (∀ p ∈ now.adjacencyChange, Knows find me ren now p) →
    (∀ t, UserBridge.members tab t = (sent.uidConnected t).image ren) →
    ∀ t, UserBridge.members (now.sendAdjacencyChange.2.2.foldl (AdjacencyTab.apply find me) tab) t =
      (now.uidConnected t).image ren

theorem ChangesTellLinks.peersFollow {sent now : SourceRoutes} (h : ChangesTellLinks sent now) :
    PeersFollow sent now := by
  intro find me ren tab hren hknows htab t
  rw [← congrFun h t]
  exact members_foldl_adjacencyRecs now hren _ hknows none htab t

/-! ## The condition -/

/-- **The queued changes tell the peers which links there are**, in every run of
the routes after a message was sent, if and only if no link changes an odd number
of times, three or more. -/
theorem changesTellLinks_iff_flaps (s : SourceRoutes) (es : List RouteEvent) :
    ChangesTellLinks s.sendAdjacencyChange.1 (es.foldl step s.sendAdjacencyChange.1) ∧
        PeersFollow s.sendAdjacencyChange.1 (es.foldl step s.sendAdjacencyChange.1) ↔
      ∀ u t, flaps u t s.sendAdjacencyChange.1 es < 3 ∨
        Even (flaps u t s.sendAdjacencyChange.1 es) := by
  rw [and_iff_left_of_imp ChangesTellLinks.peersFollow, changesTellLinks_iff]
  refine forall_congr' fun u => forall_congr' fun t => ?_
  rw [linkFlag_foldl]
  have hstart : s.sendAdjacencyChange.1.linkFlag u t =
      ⟨(s.sendAdjacencyChange.1.linkFlag u t).on, []⟩ := rfl
  rw [hstart]
  exact replay_iterate_toggle_iff _ _

/-- A node with one tcp transport and one peer, whose route is a link. -/
def onePeer : SourceRoutes where
  sock := fun fd => if fd = 7 then some ⟨7, 1⟩ else none
  nonce := 1
  startTime := 20
  bridgeTab := fun uid => if uid = 1 then some ⟨2, 10⟩ else none
  route := fun _ _ => ⟨⟨7, 1⟩, true, true, true, 7⟩
  tportCount := 1
  transportTab := fun _ =>
    ⟨text "net", text "tcp", none, none, { AdjacencySpace.new with members := {1} }, {7}, 1⟩
  routeList := fun fd => if fd = 7 then ⟨[(1, 0)], 1⟩ else ⟨[], 0⟩
  uidInMesh := fun _ => .empty
  meshCsum := fun _ => 0
  uidInDevice := fun _ => .empty
  adjacencyChange := []
  linkStateSeqno := 4

/-- The peer's route is replaced (`add_user_route` pops it and pushes it again),
then its routes are popped: the second removal is not queued, and the peers are
told that the link is there. -/
theorem second_removal_not_queued :
    let es : List RouteEvent :=
      [.popUserRoute 1 0, .setRoute 1 0 ⟨7, 1⟩ 0, .pushUserRoute 1 0, .popSourceRoute 1]
    let now := es.foldl step onePeer.sendAdjacencyChange.1
    applyChanges now.adjacencyChange onePeer.uidConnected 0 = {1} ∧ now.uidConnected 0 = ∅ ∧
      ¬ ChangesTellLinks onePeer.sendAdjacencyChange.1 now := by
  have hsent : applyChanges
      ([.popUserRoute 1 0, .setRoute 1 0 ⟨7, 1⟩ 0, .pushUserRoute 1 0, .popSourceRoute 1].foldl step
        onePeer.sendAdjacencyChange.1).adjacencyChange onePeer.uidConnected 0 = {1} := by
    decide
  have hnow : ([.popUserRoute 1 0, .setRoute 1 0 ⟨7, 1⟩ 0, .pushUserRoute 1 0,
      .popSourceRoute 1].foldl step onePeer.sendAdjacencyChange.1).uidConnected 0 = ∅ := by
    decide
  refine ⟨hsent, hnow, fun h => ?_⟩
  have h0 := congrFun h 0
  rw [hnow] at h0
  exact absurd (hsent.symm.trans h0) (by decide)

end SourceRoutes

end Raims
