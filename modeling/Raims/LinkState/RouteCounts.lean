import Raims.LinkState.RouteLists

/-!
# The counts agree with the lists

`find_inbox_peer` gives a route one hop without taking it out of its list. If the
route was a link, it is still counted as one. Nothing else lets the counts go wrong.
-/

namespace Raims

namespace BitRefCount

variable {r : BitRefCount} {i j : ℕ}

/-- The number of references. -/
def count (r : BitRefCount) (i : ℕ) : ℕ := if i ∈ r.bits then 1 + (r.ht i).getD 0 else 0

/-- The table has counts of members, and no zero. -/
def Wf (r : BitRefCount) : Prop := ∀ i v, r.ht i = some v → i ∈ r.bits ∧ 0 < v

theorem count_ne_zero : r.count i ≠ 0 ↔ i ∈ r.bits := by
  unfold count
  split
  · next h => simp [h]
  · next h => simp [h]

theorem wf_empty : empty.Wf := by
  intro i v h
  cases h

theorem Wf.update (hwf : r.Wf) (hmem : i ∈ r.bits) {x : Option ℕ} (hx : ∀ v, x = some v → 0 < v) :
    Wf { r with ht := Function.update r.ht i x } := by
  intro j v hj
  change Function.update r.ht i x j = some v at hj
  by_cases hji : j = i
  · subst hji
    rw [Function.update_self] at hj
    exact ⟨hmem, hx v hj⟩
  · rw [Function.update_of_ne hji] at hj
    exact hwf j v hj

/-- `ref` counts one more, and returns zero for the first. -/
theorem ref_spec (hwf : r.Wf) (hlt : r.count i < 2 ^ 32) :
    (r.ref i).1.Wf ∧ (r.ref i).1.bits = insert i r.bits ∧
      ((r.ref i).2 = 0 ↔ i ∉ r.bits) ∧
      ∀ j, (r.ref i).1.count j = r.count j + if j = i then 1 else 0 := by
  unfold ref
  by_cases hmem : i ∈ r.bits
  · have hbits : insert i r.bits = r.bits := Finset.insert_eq_of_mem hmem
    rw [if_neg (not_not.mpr hmem)]
    cases hv : r.ht i with
    | none =>
      dsimp only
      refine ⟨?_, hbits.symm, ?_, ?_⟩
      · refine hwf.update hmem ?_
        intro v hv
        obtain rfl := Option.some.inj hv
        exact Nat.one_pos
      · simp [hmem]
      · intro j
        by_cases hji : j = i
        · subst hji
          simp [count, hmem, hv]
        · simp [count, hji]
    | some v =>
      have hpos := (hwf i v hv).2
      have hmod : (v + 1) % 2 ^ 32 = v + 1 := by
        refine Nat.mod_eq_of_lt ?_
        rw [count, if_pos hmem, hv] at hlt
        rw [Nat.add_comm]
        exact hlt
      dsimp only
      refine ⟨?_, hbits.symm, ?_, ?_⟩
      · refine hwf.update hmem ?_
        intro w hw
        rw [hmod] at hw
        obtain rfl := Option.some.inj hw
        exact Nat.succ_pos v
      · constructor
        · intro hzero
          exact absurd hzero (Nat.pos_iff_ne_zero.mp hpos)
        · intro hnot
          exact absurd hmem hnot
      · intro j
        by_cases hji : j = i
        · subst hji
          simp only [count, if_pos hmem, hv, Function.update_self, hmod, if_true,
            Option.getD_some]
          omega
        · simp [count, hji]
  · have hnone : r.ht i = none := by
      rw [Option.eq_none_iff_forall_not_mem]
      intro v hv
      exact hmem (hwf i v hv).1
    rw [if_pos hmem]
    refine ⟨?_, rfl, ?_, ?_⟩
    · intro j v hj
      exact ⟨Finset.mem_insert_of_mem (hwf j v hj).1, (hwf j v hj).2⟩
    · simp [hmem]
    · intro j
      by_cases hji : j = i
      · subst hji
        simp [count, hmem, hnone]
      · simp [count, hji]

/-- `deref` counts one less, and returns zero for the last. -/
theorem deref_spec (hwf : r.Wf) (hmem : i ∈ r.bits) :
    (r.deref i).1.Wf ∧
      ((r.deref i).2 = 0 ↔ r.count i = 1) ∧
      (r.deref i).1.bits = (if r.count i = 1 then r.bits.erase i else r.bits) ∧
      ∀ j, (r.deref i).1.count j = r.count j - if j = i then 1 else 0 := by
  unfold deref
  cases hv : r.ht i with
  | none =>
    have hone : r.count i = 1 := by simp [count, hmem, hv]
    rw [if_pos hone]
    simp only [if_pos hmem]
    refine ⟨?_, by simp [hone], trivial, ?_⟩
    · intro j v hj
      have hne : j ≠ i := by
        rintro rfl
        rw [hv] at hj
        cases hj
      exact ⟨Finset.mem_erase_of_ne_of_mem hne (hwf j v hj).1, (hwf j v hj).2⟩
    · intro j
      by_cases hji : j = i
      · subst hji
        simp [count, hmem, hv]
      · simp [count, hji]
  | some v =>
    have hpos := (hwf i v hv).2
    have hcount : r.count i = 1 + v := by simp [count, hmem, hv]
    have hne : r.count i ≠ 1 := by omega
    rw [if_neg hne]
    dsimp only
    refine ⟨?_, ?_, rfl, ?_⟩
    · refine hwf.update hmem ?_
      intro w hw
      by_cases hone : v = 1
      · rw [if_pos hone] at hw
        cases hw
      · rw [if_neg hone] at hw
        obtain rfl := Option.some.inj hw
        omega
    · constructor
      · intro hzero
        exact absurd hzero (Nat.pos_iff_ne_zero.mp hpos)
      · intro hone
        exact absurd hone hne
    · intro j
      by_cases hji : j = i
      · subst hji
        simp only [count, if_pos hmem, hv, Function.update_self, if_true, Option.getD_some]
        by_cases hone : v = 1
        · simp [hone]
        · simp only [if_neg hone, Option.getD_some]
          omega
      · simp [count, hji]

end BitRefCount

namespace SourceRoutes

variable {s s' s'' : SourceRoutes} {uid t : ℕ}

/-! ## What the parts of a push and a pop change -/

/-- The peers that transport `t` has in `uid_connected`. -/
def members (s : SourceRoutes) (t : ℕ) : Finset ℕ := (s.transportTab t).uidConnected.members

def refs (s : SourceRoutes) (fd : ℕ) : ℕ := (s.routeList fd).sysRouteRefs

/-- Routes, lists and the table of transports are the same. -/
structure SameRoutes (s s' : SourceRoutes) : Prop where
  route : s'.route = s.route
  list : ∀ fd, (s'.routeList fd).list = (s.routeList fd).list
  count : s'.tportCount = s.tportCount
  bridge : s'.bridgeTab = s.bridgeTab
  mesh : ∀ t, (s'.transportTab t).meshId = (s.transportTab t).meshId

theorem SameRoutes.refl (s : SourceRoutes) : SameRoutes s s :=
  ⟨rfl, fun _ => rfl, rfl, rfl, fun _ => rfl⟩

theorem SameRoutes.trans (h : SameRoutes s s') (h' : SameRoutes s' s'') : SameRoutes s s'' :=
  ⟨h'.route.trans h.route, fun fd => (h'.list fd).trans (h.list fd), h'.count.trans h.count,
    h'.bridge.trans h.bridge, fun t => (h'.mesh t).trans (h.mesh t)⟩

/-- The members of the meshes are counted as before. -/
def SameMesh (s s' : SourceRoutes) : Prop := s'.uidInMesh = s.uidInMesh ∧ s'.meshCsum = s.meshCsum

theorem sameRoutes_modifyTport {f : TransportRoute → TransportRoute}
    (hf : (f (s.transportTab t)).meshId = (s.transportTab t).meshId) :
    SameRoutes s (s.modifyTport t f) := by
  refine ⟨rfl, fun _ => rfl, rfl, rfl, fun t' => ?_⟩
  by_cases ht : t' = t
  · subst ht
    simp [modifyTport, hf]
  · simp [modifyTport, ht]

theorem members_modifyTport {f : TransportRoute → TransportRoute} (t' : ℕ) :
    (s.modifyTport t f).members t' =
      if t' = t then (f (s.transportTab t)).uidConnected.members else s.members t' := by
  by_cases ht : t' = t
  · subst ht
    simp [members, modifyTport]
  · simp [members, modifyTport, ht]

/-- A change of a transport that keeps its mesh and its `uid_connected`. -/
theorem modifyTport_same {f : TransportRoute → TransportRoute} (s : SourceRoutes) (t : ℕ)
    (hmesh : (f (s.transportTab t)).meshId = (s.transportTab t).meshId)
    (hset : (f (s.transportTab t)).uidConnected.members = s.members t) :
    SameRoutes s (s.modifyTport t f) ∧ SameMesh s (s.modifyTport t f) ∧
      (s.modifyTport t f).members = s.members ∧ (s.modifyTport t f).refs = s.refs := by
  refine ⟨sameRoutes_modifyTport hmesh, ⟨rfl, rfl⟩, ?_, rfl⟩
  funext t'
  rw [members_modifyTport]
  split
  · next ht => rw [hset, ht]
  · rfl

theorem sameRoutes_modifyList (s : SourceRoutes) (fd : ℕ) (f : UserRouteList → UserRouteList)
    (hf : (f (s.routeList fd)).list = (s.routeList fd).list) :
    SameRoutes s (s.modifyList fd f) := by
  refine ⟨rfl, fun fd' => ?_, rfl, rfl, fun _ => rfl⟩
  by_cases hfd : fd' = fd
  · subst hfd
    simp [modifyList, hf]
  · simp [modifyList, hfd]

theorem refs_modifyList {f : UserRouteList → UserRouteList} (fd fd' : ℕ) :
    (s.modifyList fd f).refs fd' =
      if fd' = fd then (f (s.routeList fd)).sysRouteRefs else s.refs fd' := by
  by_cases hfd : fd' = fd
  · subst hfd
    simp [refs, modifyList]
  · simp [refs, modifyList, hfd]

theorem refShared_same (s : SourceRoutes) (uid t : ℕ) :
    SameRoutes s (s.refShared uid t) ∧ (s.refShared uid t).refs = s.refs ∧
      (s.refShared uid t).members = s.members := by
  unfold refShared
  split <;> exact ⟨⟨rfl, fun _ => rfl, rfl, rfl, fun _ => rfl⟩, rfl, rfl⟩

theorem derefShared_same (s : SourceRoutes) (uid t : ℕ) :
    SameRoutes s (s.derefShared uid t) ∧ (s.derefShared uid t).refs = s.refs ∧
      (s.derefShared uid t).members = s.members := by
  unfold derefShared
  split <;> exact ⟨⟨rfl, fun _ => rfl, rfl, rfl, fun _ => rfl⟩, rfl, rfl⟩

/-- A change of `uid_connected` that is noted for the others. -/
theorem changed_same {f : TransportRoute → TransportRoute} (s : SourceRoutes) (t : ℕ)
    (changes : List AdjChange) (hmesh : (f (s.transportTab t)).meshId = (s.transportTab t).meshId) :
    let s' := { s.modifyTport t f with adjacencyChange := changes }
    SameRoutes s s' ∧ SameMesh s s' ∧ s'.refs = s.refs ∧
      ∀ t', s'.members t' =
        if t' = t then (f (s.transportTab t)).uidConnected.members else s.members t' := by
  have hsame : SameRoutes s (s.modifyTport t f) := sameRoutes_modifyTport hmesh
  exact ⟨⟨hsame.route, hsame.list, hsame.count, hsame.bridge, hsame.mesh⟩, ⟨rfl, rfl⟩, rfl,
    fun t' => members_modifyTport (s := s) t'⟩

theorem connectUid_same (s : SourceRoutes) (uid t : ℕ) :
    SameRoutes s (s.connectUid uid t) ∧ SameMesh s (s.connectUid uid t) ∧
      (s.connectUid uid t).refs = s.refs ∧
      ∀ t', (s.connectUid uid t).members t' =
        if t' = t then insert uid (s.members t) else s.members t' := by
  unfold connectUid
  dsimp only
  split
  · next hmem =>
      refine ⟨.refl s, ⟨rfl, rfl⟩, rfl, fun t' => ?_⟩
      split
      · next ht =>
          subst ht
          exact (Finset.insert_eq_of_mem hmem).symm
      · rfl
  · exact changed_same s t _ rfl

theorem disconnectUid_same (s : SourceRoutes) (uid t : ℕ) :
    SameRoutes s (s.disconnectUid uid t) ∧ SameMesh s (s.disconnectUid uid t) ∧
      (s.disconnectUid uid t).refs = s.refs ∧
      ∀ t', (s.disconnectUid uid t).members t' =
        if t' = t then (s.members t).erase uid else s.members t' := by
  unfold disconnectUid
  dsimp only
  split
  · next hmem =>
      refine ⟨.refl s, ⟨rfl, rfl⟩, rfl, fun t' => ?_⟩
      split
      · next ht =>
          subst ht
          exact (Finset.erase_eq_of_notMem hmem).symm
      · rfl
  · exact changed_same s t _ rfl

/-- Another count of a list, and the transport that is told of it. -/
theorem sysRouteRefs_same (s : SourceRoutes) (t fd refs : ℕ) (p : Prop) [Decidable p]
    {f : TransportRoute → TransportRoute} (hmesh : ∀ rte, (f rte).meshId = rte.meshId)
    (hset : ∀ rte, (f rte).uidConnected = rte.uidConnected) :
    let r := s.modifyList fd fun l => { l with sysRouteRefs := refs }
    let s' := if p then r.modifyTport t f else r
    SameRoutes s s' ∧ SameMesh s s' ∧ s'.members = s.members ∧
      ∀ fd', s'.refs fd' = if fd' = fd then refs else s.refs fd' := by
  intro r s'
  have hlist : SameRoutes s r := sameRoutes_modifyList s fd _ rfl
  have hrefs : ∀ fd', r.refs fd' = if fd' = fd then refs else s.refs fd' := refs_modifyList fd
  by_cases hp : p
  · obtain ⟨hr, -, hmembers, htold⟩ := modifyTport_same r t (hmesh _) (congrArg _ (hset _))
    have hs' : s' = r.modifyTport t f := if_pos hp
    rw [hs', htold, hmembers]
    exact ⟨hlist.trans hr, ⟨rfl, rfl⟩, rfl, hrefs⟩
  · have hs' : s' = r := if_neg hp
    rw [hs']
    exact ⟨hlist, ⟨rfl, rfl⟩, rfl, hrefs⟩

theorem refSysRoute_same (s : SourceRoutes) (t fd : ℕ) :
    SameRoutes s (s.refSysRoute t fd) ∧ SameMesh s (s.refSysRoute t fd) ∧
      (s.refSysRoute t fd).members = s.members ∧
      ∀ fd', (s.refSysRoute t fd).refs fd' =
        if fd' = fd then (s.refs fd + 1) % 2 ^ 32 else s.refs fd' :=
  sysRouteRefs_same s t fd _ _ (fun _ => rfl) fun _ => rfl

theorem derefSysRoute_same (s : SourceRoutes) (t fd : ℕ) :
    SameRoutes s (s.derefSysRoute t fd) ∧ SameMesh s (s.derefSysRoute t fd) ∧
      (s.derefSysRoute t fd).members = s.members ∧
      ∀ fd', (s.derefSysRoute t fd).refs fd' =
        if fd' = fd then (s.refs fd + (2 ^ 32 - 1)) % 2 ^ 32 else s.refs fd' := by
  unfold derefSysRoute
  dsimp only
  exact sysRouteRefs_same s t fd (((s.routeList fd).sysRouteRefs + (2 ^ 32 - 1)) % 2 ^ 32) _
    (fun _ => rfl) fun _ => rfl

/-- `oldest_uid` is not counted. -/
theorem oldest_same {f : TransportRoute → ℕ} (s : SourceRoutes) (t : ℕ) :
    SameRoutes s (s.modifyTport t fun rte => { rte with oldestUid := f rte }) ∧
      SameMesh s (s.modifyTport t fun rte => { rte with oldestUid := f rte }) ∧
      (s.modifyTport t fun rte => { rte with oldestUid := f rte }).members = s.members ∧
      (s.modifyTport t fun rte => { rte with oldestUid := f rte }).refs = s.refs :=
  modifyTport_same s t rfl rfl

/-- The part of `pop_user_route` for a link on the list of `fd`. -/
def unlink (s : SourceRoutes) (uid t fd : ℕ) : SourceRoutes :=
  (((s.derefShared uid t).disconnectUid uid t).derefSysRoute t fd).removeOldest uid t

theorem pushConnectedUserRoute_same (s : SourceRoutes) (uid t : ℕ) :
    SameRoutes s (s.pushConnectedUserRoute uid t) ∧
      SameMesh (s.refShared uid t) (s.pushConnectedUserRoute uid t) ∧
      (∀ t', (s.pushConnectedUserRoute uid t).members t' =
        if t' = t then insert uid (s.members t) else s.members t') ∧
      ∀ fd, (s.pushConnectedUserRoute uid t).refs fd =
        if fd = (s.route uid t).listId then (s.refs fd + 1) % 2 ^ 32 else s.refs fd := by
  obtain ⟨hr₁, hrefs₁, hmem₁⟩ := refShared_same s uid t
  obtain ⟨hr₂, hmesh₂, hrefs₂, hmem₂⟩ := connectUid_same (s.refShared uid t) uid t
  obtain ⟨hr₃, hmesh₃, hmem₃, hrefs₃⟩ :=
    refSysRoute_same ((s.refShared uid t).connectUid uid t) t (s.route uid t).listId
  have hlast : SameRoutes (((s.refShared uid t).connectUid uid t).refSysRoute t
        (s.route uid t).listId) (s.pushConnectedUserRoute uid t) ∧
      SameMesh (((s.refShared uid t).connectUid uid t).refSysRoute t
        (s.route uid t).listId) (s.pushConnectedUserRoute uid t) ∧
      (s.pushConnectedUserRoute uid t).members = (((s.refShared uid t).connectUid uid t).refSysRoute
        t (s.route uid t).listId).members ∧
      (s.pushConnectedUserRoute uid t).refs = (((s.refShared uid t).connectUid uid t).refSysRoute
        t (s.route uid t).listId).refs := by
    unfold pushConnectedUserRoute addOldest
    dsimp only
    split
    · exact oldest_same _ t
    · exact ⟨.refl _, ⟨rfl, rfl⟩, rfl, rfl⟩
  obtain ⟨hr₄, hmesh₄, hmem₄, hrefs₄⟩ := hlast
  refine ⟨((hr₁.trans hr₂).trans hr₃).trans hr₄, ⟨?_, ?_⟩, ?_, ?_⟩
  · rw [hmesh₄.1, hmesh₃.1, hmesh₂.1]
  · rw [hmesh₄.2, hmesh₃.2, hmesh₂.2]
  · intro t'
    rw [hmem₄, hmem₃, hmem₂, hmem₁]
  · intro fd
    rw [hrefs₄, hrefs₃, hrefs₂, hrefs₁]
    split
    · next hfd => rw [hfd]
    · rfl

theorem unlink_same (s : SourceRoutes) (uid t fd : ℕ) :
    SameRoutes s (s.unlink uid t fd) ∧ SameMesh (s.derefShared uid t) (s.unlink uid t fd) ∧
      (∀ t', (s.unlink uid t fd).members t' =
        if t' = t then (s.members t).erase uid else s.members t') ∧
      ∀ fd', (s.unlink uid t fd).refs fd' =
        if fd' = fd then (s.refs fd + (2 ^ 32 - 1)) % 2 ^ 32 else s.refs fd' := by
  obtain ⟨hr₁, hrefs₁, hmem₁⟩ := derefShared_same s uid t
  obtain ⟨hr₂, hmesh₂, hrefs₂, hmem₂⟩ := disconnectUid_same (s.derefShared uid t) uid t
  obtain ⟨hr₃, hmesh₃, hmem₃, hrefs₃⟩ :=
    derefSysRoute_same ((s.derefShared uid t).disconnectUid uid t) t fd
  have hlast : SameRoutes (((s.derefShared uid t).disconnectUid uid t).derefSysRoute t fd)
        (s.unlink uid t fd) ∧
      SameMesh (((s.derefShared uid t).disconnectUid uid t).derefSysRoute t fd)
        (s.unlink uid t fd) ∧
      (s.unlink uid t fd).members =
        (((s.derefShared uid t).disconnectUid uid t).derefSysRoute t fd).members ∧
      (s.unlink uid t fd).refs =
        (((s.derefShared uid t).disconnectUid uid t).derefSysRoute t fd).refs := by
    unfold unlink removeOldest
    split
    · exact oldest_same _ t
    · exact ⟨.refl _, ⟨rfl, rfl⟩, rfl, rfl⟩
  obtain ⟨hr₄, hmesh₄, hmem₄, hrefs₄⟩ := hlast
  refine ⟨((hr₁.trans hr₂).trans hr₃).trans hr₄, ⟨?_, ?_⟩, ?_, ?_⟩
  · rw [hmesh₄.1, hmesh₃.1, hmesh₂.1]
  · rw [hmesh₄.2, hmesh₃.2, hmesh₂.2]
  · intro t'
    rw [hmem₄, hmem₃, hmem₂, hmem₁]
  · intro fd'
    rw [hrefs₄, hrefs₃, hrefs₂, hrefs₁]

/-! ## The counts of a set of links -/

/-- The links of `uid` in mesh `m`. -/
def meshLinks (s : SourceRoutes) (L : Finset (ℕ × ℕ)) (m uid : ℕ) : Finset (ℕ × ℕ) :=
  L.filter fun p => p.1 = uid ∧ (s.transportTab p.2).meshId = some m

/-- The links on the list of socket `fd`. -/
def listLinks (s : SourceRoutes) (L : Finset (ℕ × ℕ)) (fd : ℕ) : Finset (ℕ × ℕ) :=
  L.filter fun p => (s.route p.1 p.2).listId = fd

structure MeshCounts (L : Finset (ℕ × ℕ)) (s : SourceRoutes) : Prop where
  wf : ∀ m, (s.uidInMesh m).Wf
  count : ∀ m uid, (s.uidInMesh m).count uid = (s.meshLinks L m uid).card
  csum : ∀ m, s.meshCsum m = (s.uidInMesh m).bits.fold (fun x y : Nonce => x ^^^ y) 0 s.peerNonce

/-- Links are counted where they should be. -/
structure Counts (L : Finset (ℕ × ℕ)) (s : SourceRoutes) : Prop where
  inTable : ∀ p ∈ L, p.2 < s.tportCount
  refs : ∀ fd, s.refs fd = (s.listLinks L fd).card % 2 ^ 32
  members : ∀ uid t, uid ∈ s.members t ↔ (uid, t) ∈ L
  mesh : MeshCounts L s

variable {L : Finset (ℕ × ℕ)}

/-- A peer has no more links in a mesh than there are transports. -/
theorem card_meshLinks_lt {m : ℕ} (hL : ∀ p ∈ L, p.2 < s.tportCount) (ht : t < s.tportCount)
    (hnot : (uid, t) ∉ L) : (s.meshLinks L m uid).card < s.tportCount := by
  have hinj : Set.InjOn Prod.snd (s.meshLinks L m uid : Set (ℕ × ℕ)) := by
    intro p hp q hq hpq
    have hp := (Finset.mem_filter.mp hp).2.1
    have hq := (Finset.mem_filter.mp hq).2.1
    exact Prod.ext (hp.trans hq.symm) hpq
  have hsub : (s.meshLinks L m uid).image Prod.snd ⊆ (Finset.range s.tportCount).erase t := by
    intro i hi
    obtain ⟨p, hp, rfl⟩ := Finset.mem_image.mp hi
    obtain ⟨hpL, hpu, -⟩ := Finset.mem_filter.mp hp
    refine Finset.mem_erase.mpr ⟨?_, Finset.mem_range.mpr (hL p hpL)⟩
    rintro rfl
    rw [← hpu] at hnot
    exact hnot hpL
  have hcard := Finset.card_le_card hsub
  rw [Finset.card_image_of_injOn hinj, Finset.card_erase_of_mem (Finset.mem_range.mpr ht),
    Finset.card_range] at hcard
  omega

theorem meshLinks_insert {m u : ℕ} : s.meshLinks (insert (uid, t) L) m u =
    if uid = u ∧ (s.transportTab t).meshId = some m then insert (uid, t) (s.meshLinks L m u)
    else s.meshLinks L m u := Finset.filter_insert ..

theorem meshLinks_erase {m u : ℕ} :
    s.meshLinks (L.erase (uid, t)) m u = (s.meshLinks L m u).erase (uid, t) :=
  Finset.filter_erase ..

theorem peerNonce_eq (h : s'.bridgeTab = s.bridgeTab) : s'.peerNonce = s.peerNonce := by
  funext u
  rw [peerNonce, peerNonce, h]

/-- What `uid_in_mesh` and `mesh_csum` are about is the same. -/
theorem MeshCounts.congr (h : MeshCounts L s) (hmesh : SameMesh s s')
    (hid : ∀ t, (s'.transportTab t).meshId = (s.transportTab t).meshId)
    (hbridge : s'.bridgeTab = s.bridgeTab) : MeshCounts L s' := by
  have hlinks : ∀ m u, s'.meshLinks L m u = s.meshLinks L m u := by
    intro m u
    unfold meshLinks
    simp only [hid]
  refine ⟨?_, ?_, ?_⟩
  · intro m
    rw [hmesh.1]
    exact h.wf m
  · intro m u
    rw [hmesh.1, hlinks]
    exact h.count m u
  · intro m
    rw [hmesh.1, hmesh.2, peerNonce_eq hbridge]
    exact h.csum m

theorem MeshCounts.refShared (h : MeshCounts L s) (hL : ∀ p ∈ L, p.2 < s.tportCount)
    (ht : t < s.tportCount) (hcount : s.tportCount < 2 ^ 32) (hnot : (uid, t) ∉ L) :
    MeshCounts (insert (uid, t) L) (s.refShared uid t) := by
  cases hid : (s.transportTab t).meshId with
  | none =>
    have hsame : SameMesh s (s.refShared uid t) := by
      unfold SourceRoutes.refShared
      rw [hid]
      cases (s.transportTab t).devId <;> exact ⟨rfl, rfl⟩
    have hr := (refShared_same s uid t).1
    have hlinks : ∀ m u, s.meshLinks (insert (uid, t) L) m u = s.meshLinks L m u := by
      intro m u
      rw [meshLinks_insert, if_neg]
      rw [hid]
      simp
    refine MeshCounts.congr ⟨h.wf, ?_, h.csum⟩ hsame hr.mesh hr.bridge
    intro m u
    rw [hlinks]
    exact h.count m u
  | some m₀ =>
    have hlt : (s.uidInMesh m₀).count uid < 2 ^ 32 := by
      rw [h.count]
      exact lt_trans (card_meshLinks_lt hL ht hnot) hcount
    obtain ⟨hwf, hbits, hzero, hadd⟩ := BitRefCount.ref_spec (h.wf m₀) hlt
    have hdef : s.refShared uid t =
        { s with
          uidInMesh := Function.update s.uidInMesh m₀ ((s.uidInMesh m₀).ref uid).1
          meshCsum :=
            if ((s.uidInMesh m₀).ref uid).2 = 0 then
              Function.update s.meshCsum m₀ (s.meshCsum m₀ ^^^ s.peerNonce uid)
            else s.meshCsum } := by
      unfold SourceRoutes.refShared
      rw [hid]
    rw [hdef]
    refine ⟨?_, ?_, ?_⟩
    · intro m
      by_cases hm : m = m₀
      · subst hm
        simpa using hwf
      · simpa [hm] using h.wf m
    · intro m u
      show (Function.update s.uidInMesh m₀ _ m).count u =
        (s.meshLinks (insert (uid, t) L) m u).card
      rw [meshLinks_insert, hid]
      by_cases hm : m = m₀
      · subst hm
        rw [Function.update_self, hadd, h.count]
        by_cases hu : uid = u
        · subst hu
          have hnotin : (uid, t) ∉ s.meshLinks L m uid := fun hin =>
            hnot (Finset.mem_filter.mp hin).1
          rw [if_pos rfl, if_pos ⟨rfl, rfl⟩, Finset.card_insert_of_notMem hnotin]
        · rw [if_neg (Ne.symm hu), if_neg (fun hand => hu hand.1)]
          rfl
      · rw [Function.update_of_ne hm, h.count, if_neg]
        rintro ⟨-, hsome⟩
        exact hm (Option.some.inj hsome).symm
    · intro m
      show (if ((s.uidInMesh m₀).ref uid).2 = 0 then
          Function.update s.meshCsum m₀ (s.meshCsum m₀ ^^^ s.peerNonce uid)
        else s.meshCsum) m = (Function.update s.uidInMesh m₀ _ m).bits.fold _ 0 s.peerNonce
      by_cases hm : m = m₀
      · subst hm
        rw [Function.update_self, hbits]
        by_cases hmem : uid ∈ (s.uidInMesh m).bits
        · rw [if_neg (fun hz => hzero.mp hz hmem), Finset.insert_eq_of_mem hmem]
          exact h.csum m
        · rw [if_pos (hzero.mpr hmem), Function.update_self, Finset.fold_insert hmem, h.csum,
            BitVec.xor_comm]
      · rw [Function.update_of_ne hm]
        split
        · rw [Function.update_of_ne hm]
          exact h.csum m
        · exact h.csum m

theorem MeshCounts.derefShared (h : MeshCounts L s) (hmem : (uid, t) ∈ L) :
    MeshCounts (L.erase (uid, t)) (s.derefShared uid t) := by
  cases hid : (s.transportTab t).meshId with
  | none =>
    have hsame : SameMesh s (s.derefShared uid t) := by
      unfold SourceRoutes.derefShared
      rw [hid]
      cases (s.transportTab t).devId <;> exact ⟨rfl, rfl⟩
    have hr := (derefShared_same s uid t).1
    have hlinks : ∀ m u, s.meshLinks (L.erase (uid, t)) m u = s.meshLinks L m u := by
      intro m u
      rw [meshLinks_erase, Finset.erase_eq_of_notMem]
      intro hin
      have hsome := (Finset.mem_filter.mp hin).2.2
      rw [hid] at hsome
      cases hsome
    refine MeshCounts.congr ⟨h.wf, ?_, h.csum⟩ hsame hr.mesh hr.bridge
    intro m u
    rw [hlinks]
    exact h.count m u
  | some m₀ =>
    have hin : (uid, t) ∈ s.meshLinks L m₀ uid := Finset.mem_filter.mpr ⟨hmem, rfl, hid⟩
    have hbit : uid ∈ (s.uidInMesh m₀).bits := by
      rw [← BitRefCount.count_ne_zero, h.count]
      exact Finset.card_ne_zero_of_mem hin
    obtain ⟨hwf, hzero, hbits, hsub⟩ := BitRefCount.deref_spec (h.wf m₀) hbit
    have hdef : s.derefShared uid t =
        { s with
          uidInMesh := Function.update s.uidInMesh m₀ ((s.uidInMesh m₀).deref uid).1
          meshCsum :=
            if ((s.uidInMesh m₀).deref uid).2 = 0 then
              Function.update s.meshCsum m₀ (s.meshCsum m₀ ^^^ s.peerNonce uid)
            else s.meshCsum } := by
      unfold SourceRoutes.derefShared
      rw [hid]
    rw [hdef]
    refine ⟨?_, ?_, ?_⟩
    · intro m
      by_cases hm : m = m₀
      · subst hm
        simpa using hwf
      · simpa [hm] using h.wf m
    · intro m u
      show (Function.update s.uidInMesh m₀ _ m).count u =
        (s.meshLinks (L.erase (uid, t)) m u).card
      rw [meshLinks_erase]
      by_cases hm : m = m₀
      · subst hm
        rw [Function.update_self, hsub, h.count]
        by_cases hu : u = uid
        · subst hu
          rw [if_pos rfl, Finset.card_erase_of_mem hin]
        · rw [if_neg hu, Nat.sub_zero, Finset.erase_eq_of_notMem]
          intro hin'
          exact hu (Finset.mem_filter.mp hin').2.1.symm
      · rw [Function.update_of_ne hm, h.count, Finset.erase_eq_of_notMem]
        intro hin'
        have hsome := (Finset.mem_filter.mp hin').2.2
        rw [hid] at hsome
        exact hm (Option.some.inj hsome).symm
    · intro m
      show (if ((s.uidInMesh m₀).deref uid).2 = 0 then
          Function.update s.meshCsum m₀ (s.meshCsum m₀ ^^^ s.peerNonce uid)
        else s.meshCsum) m = (Function.update s.uidInMesh m₀ _ m).bits.fold _ 0 s.peerNonce
      by_cases hm : m = m₀
      · subst hm
        rw [Function.update_self, hbits]
        by_cases hone : (s.uidInMesh m).count uid = 1
        · -- the last one takes its nonce out again
          have hfold : (insert uid ((s.uidInMesh m).bits.erase uid)).fold
              (fun x y : Nonce => x ^^^ y) 0 s.peerNonce = _ :=
            Finset.fold_insert (Finset.notMem_erase uid (s.uidInMesh m).bits)
          rw [Finset.insert_erase hbit] at hfold
          rw [if_pos (hzero.mpr hone), if_pos hone, Function.update_self, h.csum, hfold,
            BitVec.xor_comm, ← BitVec.xor_assoc, BitVec.xor_self, BitVec.zero_xor]
        · rw [if_neg (fun hz => hone (hzero.mp hz)), if_neg hone]
          exact h.csum m
      · rw [Function.update_of_ne hm]
        split
        · rw [Function.update_of_ne hm]
          exact h.csum m
        · exact h.csum m

theorem listLinks_insert {fd : ℕ} : s.listLinks (insert (uid, t) L) fd =
    if (s.route uid t).listId = fd then insert (uid, t) (s.listLinks L fd)
    else s.listLinks L fd := Finset.filter_insert ..

theorem listLinks_erase {fd : ℕ} :
    s.listLinks (L.erase (uid, t)) fd = (s.listLinks L fd).erase (uid, t) :=
  Finset.filter_erase ..

theorem listLinks_congr (h : s'.route = s.route) : s'.listLinks L = s.listLinks L := by
  funext fd
  unfold listLinks
  rw [h]

/-- A new link is counted. -/
theorem Counts.pushConnected (h : Counts L s) (hnot : (uid, t) ∉ L) (ht : t < s.tportCount)
    (hcount : s.tportCount < 2 ^ 32) :
    Counts (insert (uid, t) L) (s.pushConnectedUserRoute uid t) := by
  obtain ⟨hr, hmesh, hmem, hrefs⟩ := pushConnectedUserRoute_same s uid t
  refine ⟨?_, ?_, ?_, ?_⟩
  · intro p hp
    rw [hr.count]
    rcases Finset.mem_insert.mp hp with rfl | hp
    · exact ht
    · exact h.inTable p hp
  · intro fd
    have hnotin : (uid, t) ∉ s.listLinks L fd := fun hin => hnot (Finset.mem_filter.mp hin).1
    rw [hrefs, listLinks_congr hr.route, listLinks_insert, h.refs]
    by_cases hfd : (s.route uid t).listId = fd
    · rw [if_pos hfd.symm, if_pos hfd, Finset.card_insert_of_notMem hnotin, Nat.mod_add_mod]
    · rw [if_neg (Ne.symm hfd), if_neg hfd]
  · intro u t'
    rw [hmem, Finset.mem_insert, Prod.mk.injEq]
    by_cases htt : t' = t
    · subst htt
      rw [if_pos rfl, Finset.mem_insert, h.members]
      simp
    · rw [if_neg htt, h.members]
      simp [htt]
  · have hshared := h.mesh.refShared h.inTable ht hcount hnot
    have hr₁ := (refShared_same s uid t).1
    refine hshared.congr hmesh ?_ ?_
    · intro t'
      rw [hr.mesh, hr₁.mesh]
    · rw [hr.bridge, hr₁.bridge]

/-- A link that goes is not. -/
theorem Counts.unlink (h : Counts L s) (hin : (uid, t) ∈ L) :
    Counts (L.erase (uid, t)) (s.unlink uid t (s.route uid t).listId) := by
  obtain ⟨hr, hmesh, hmem, hrefs⟩ := unlink_same s uid t (s.route uid t).listId
  refine ⟨?_, ?_, ?_, ?_⟩
  · intro p hp
    rw [hr.count]
    exact h.inTable p (Finset.mem_of_mem_erase hp)
  · intro fd
    rw [hrefs, listLinks_congr hr.route, listLinks_erase]
    by_cases hfd : fd = (s.route uid t).listId
    · subst hfd
      have hmemL : (uid, t) ∈ s.listLinks L (s.route uid t).listId :=
        Finset.mem_filter.mpr ⟨hin, rfl⟩
      have hpos := Finset.card_pos.mpr ⟨_, hmemL⟩
      rw [if_pos rfl, h.refs, Finset.card_erase_of_mem hmemL, Nat.mod_add_mod]
      omega
    · have hnotin : (uid, t) ∉ s.listLinks L fd := fun hin' =>
        hfd (Finset.mem_filter.mp hin').2.symm
      rw [if_neg hfd, h.refs, Finset.erase_eq_of_notMem hnotin]
  · intro u t'
    rw [hmem, Finset.mem_erase, ne_eq, Prod.mk.injEq]
    by_cases htt : t' = t
    · subst htt
      rw [if_pos rfl, Finset.mem_erase, h.members]
      simp
    · rw [if_neg htt, h.members]
      simp [htt]
  · have hshared := h.mesh.derefShared hin
    have hr₁ := (derefShared_same s uid t).1
    refine hshared.congr hmesh ?_ ?_
    · intro t'
      rw [hr.mesh, hr₁.mesh]
    · rw [hr.bridge, hr₁.bridge]

/-! ## The lists -/

structure Lists (s : SourceRoutes) : Prop where
  mem_list : ∀ fd uid t, (uid, t) ∈ (s.routeList fd).list ↔
    (s.route uid t).inRouteList = true ∧ (s.route uid t).listId = fd
  nodup : ∀ fd, (s.routeList fd).list.Nodup
  valid : ∀ uid t, (s.route uid t).inRouteList = true → (s.route uid t).isValid = true

theorem Lists.congr (h : Lists s) (hr : SameRoutes s s') : Lists s' := by
  refine ⟨?_, ?_, ?_⟩
  · intro fd u t'
    rw [hr.list, hr.route]
    exact h.mem_list fd u t'
  · intro fd
    rw [hr.list]
    exact h.nodup fd
  · intro u t'
    rw [hr.route]
    exact h.valid u t'

theorem route_modifyRoute {f : UserRoute → UserRoute} (u t' : ℕ) :
    (s.modifyRoute uid t f).route u t' =
      if u = uid ∧ t' = t then f (s.route uid t) else s.route u t' := by
  unfold modifyRoute
  dsimp only
  by_cases hu : u = uid
  · subst hu
    by_cases ht : t' = t
    · subst ht
      simp
    · simp [ht]
  · simp [hu]

/-- A route gets into the list of its socket. -/
theorem Lists.enter (h : Lists s) {r : UserRoute} (hout : (s.route uid t).inRouteList = false)
    (hroute : ∀ u t', s'.route u t' = if u = uid ∧ t' = t then r else s.route u t')
    (hin : r.inRouteList = true) (hvalid : r.isValid = true)
    (hlist : ∀ fd, (s'.routeList fd).list =
      if fd = r.listId then (s.routeList fd).list ++ [(uid, t)] else (s.routeList fd).list) :
    Lists s' := by
  have hnot : ∀ fd, (uid, t) ∉ (s.routeList fd).list := by
    intro fd hmem
    rw [h.mem_list, hout] at hmem
    exact Bool.false_ne_true hmem.1
  refine ⟨?_, ?_, ?_⟩
  · intro fd u t'
    rw [hlist, hroute]
    by_cases hut : u = uid ∧ t' = t
    · have hself := hut
      obtain ⟨rfl, rfl⟩ := hut
      rw [if_pos hself]
      by_cases hfd : fd = r.listId
      · rw [if_pos hfd]
        simp [hin, hfd]
      · rw [if_neg hfd]
        simp only [hnot fd, hin, true_and, false_iff]
        exact Ne.symm hfd
    · rw [if_neg hut]
      by_cases hfd : fd = r.listId
      · rw [if_pos hfd, List.mem_append, List.mem_singleton, Prod.mk.injEq]
        simp only [hut, or_false]
        exact h.mem_list fd u t'
      · rw [if_neg hfd]
        exact h.mem_list fd u t'
  · intro fd
    rw [hlist]
    by_cases hfd : fd = r.listId
    · rw [if_pos hfd]
      refine List.nodup_append.mpr ⟨h.nodup fd, List.nodup_singleton _, ?_⟩
      intro p hp q hq hpq
      rw [List.mem_singleton.mp hq] at hpq
      exact hnot fd (hpq ▸ hp)
    · rw [if_neg hfd]
      exact h.nodup fd
  · intro u t'
    rw [hroute]
    split
    · intro _
      exact hvalid
    · exact h.valid u t'

/-- And out of it. -/
theorem Lists.leave (h : Lists s) {r : UserRoute}
    (hroute : ∀ u t', s'.route u t' = if u = uid ∧ t' = t then r else s.route u t')
    (hout : r.inRouteList = false)
    (hlist : ∀ fd, (s'.routeList fd).list =
      if fd = (s.route uid t).listId then (s.routeList fd).list.erase (uid, t)
      else (s.routeList fd).list) :
    Lists s' := by
  refine ⟨?_, ?_, ?_⟩
  · intro fd u t'
    rw [hlist, hroute]
    by_cases hut : u = uid ∧ t' = t
    · have hself := hut
      obtain ⟨rfl, rfl⟩ := hut
      rw [if_pos hself]
      by_cases hfd : fd = (s.route u t').listId
      · rw [if_pos hfd]
        simp [hout, (h.nodup fd).mem_erase_iff]
      · rw [if_neg hfd, h.mem_list]
        simp [hout, Ne.symm hfd]
    · rw [if_neg hut]
      by_cases hfd : fd = (s.route uid t).listId
      · rw [if_pos hfd, (h.nodup fd).mem_erase_iff, ne_eq, Prod.mk.injEq]
        simp only [hut, not_false_iff, true_and]
        exact h.mem_list fd u t'
      · rw [if_neg hfd]
        exact h.mem_list fd u t'
  · intro fd
    rw [hlist]
    split
    · exact (h.nodup fd).erase _
    · exact h.nodup fd
  · intro u t'
    rw [hroute]
    split
    · intro hin
      rw [hout] at hin
      cases hin
    · exact h.valid u t'

/-- From one list to another. -/
theorem Lists.move (h : Lists s) {r : UserRoute}
    (hroute : ∀ u t', s'.route u t' = if u = uid ∧ t' = t then r else s.route u t')
    (hin : r.inRouteList = true) (hvalid : r.isValid = true)
    (hne : r.listId ≠ (s.route uid t).listId)
    (hlist : ∀ fd, (s'.routeList fd).list =
      if fd = r.listId then (s.routeList fd).list ++ [(uid, t)]
      else if fd = (s.route uid t).listId then (s.routeList fd).list.erase (uid, t)
      else (s.routeList fd).list) :
    Lists s' := by
  let out : UserRoute := { s.route uid t with inRouteList := false }
  let mid : SourceRoutes :=
    { s with
      route := fun u t' => if u = uid ∧ t' = t then out else s.route u t'
      routeList := fun fd =>
        if fd = (s.route uid t).listId then
          { s.routeList fd with list := (s.routeList fd).list.erase (uid, t) }
        else s.routeList fd }
  have hmid : Lists mid := by
    refine h.leave (fun _ _ => rfl) rfl ?_
    intro fd
    show (if fd = (s.route uid t).listId then _ else _ : UserRouteList).list = _
    split <;> rfl
  have hself : mid.route uid t = out := if_pos ⟨rfl, rfl⟩
  refine hmid.enter (by rw [hself]) ?_ hin hvalid ?_
  · intro u t'
    rw [hroute]
    show _ = if u = uid ∧ t' = t then r else if u = uid ∧ t' = t then out else s.route u t'
    split <;> rfl
  · intro fd
    rw [hlist]
    show _ = if fd = r.listId then
        (if fd = (s.route uid t).listId then _ else _ : UserRouteList).list ++ [(uid, t)]
      else (if fd = (s.route uid t).listId then _ else _ : UserRouteList).list
    by_cases hfd : fd = r.listId
    · rw [if_pos hfd, if_pos hfd, if_neg (hfd ▸ hne)]
    · rw [if_neg hfd, if_neg hfd]
      split <;> rfl

/-! ## The invariant -/

/-- A route in a list that has no hops. -/
def IsLink (s : SourceRoutes) (uid t : ℕ) : Prop :=
  (s.route uid t).inRouteList = true ∧ (s.route uid t).hops = 0

structure Inv (s : SourceRoutes) : Prop where
  lists : Lists s
  small : s.tportCount < 2 ^ 32
  counts : ∃ L, Counts L s ∧ ∀ uid t, (uid, t) ∈ L ↔ s.IsLink uid t

/-- A step that changes no count, and the socket of no link. -/
theorem Counts.congr (h : Counts L s) (hrefs : s'.refs = s.refs) (htab : s'.transportTab =
      s.transportTab) (hmesh : SameMesh s s') (hbridge : s'.bridgeTab = s.bridgeTab)
    (hcount : s'.tportCount = s.tportCount)
    (hlist : ∀ p ∈ L, (s'.route p.1 p.2).listId = (s.route p.1 p.2).listId) : Counts L s' := by
  refine ⟨?_, ?_, ?_, ?_⟩
  · intro p hp
    rw [hcount]
    exact h.inTable p hp
  · intro fd
    have hlinks : s'.listLinks L fd = s.listLinks L fd := by
      unfold listLinks
      refine Finset.filter_congr ?_
      intro p hp
      rw [hlist p hp]
    rw [hrefs, hlinks]
    exact h.refs fd
  · intro u t'
    unfold SourceRoutes.members
    rw [htab]
    exact h.members u t'
  · refine h.mesh.congr hmesh ?_ hbridge
    intro t'
    rw [htab]

theorem isLink_of_route {r : UserRoute}
    (hroute : ∀ u t', s'.route u t' = if u = uid ∧ t' = t then r else s.route u t') (u t' : ℕ) :
    s'.IsLink u t' ↔
      if u = uid ∧ t' = t then r.inRouteList = true ∧ r.hops = 0 else s.IsLink u t' := by
  unfold IsLink
  rw [hroute]
  split <;> exact Iff.rfl

theorem routeList_modifyRoute (s : SourceRoutes) (uid t : ℕ) (f : UserRoute → UserRoute) :
    (s.modifyRoute uid t f).routeList = s.routeList := rfl

theorem route_modifyList (s : SourceRoutes) (fd : ℕ) (f : UserRouteList → UserRouteList) :
    (s.modifyList fd f).route = s.route := rfl

theorem list_modifyList {f : UserRouteList → UserRouteList} (fd fd' : ℕ) :
    ((s.modifyList fd f).routeList fd').list =
      if fd' = fd then (f (s.routeList fd)).list else (s.routeList fd').list := by
  by_cases hfd : fd' = fd
  · subst hfd
    simp [modifyList]
  · simp [modifyList, hfd]

/-- A route changes in its list, or out of all. -/
theorem Lists.reroute (h : Lists s) {r : UserRoute}
    (hroute : ∀ u t', s'.route u t' = if u = uid ∧ t' = t then r else s.route u t')
    (hin : r.inRouteList = (s.route uid t).inRouteList) (hid : r.listId = (s.route uid t).listId)
    (hvalid : r.isValid = true) (hlist : ∀ fd, (s'.routeList fd).list = (s.routeList fd).list) :
    Lists s' := by
  refine ⟨?_, ?_, ?_⟩
  · intro fd u t'
    rw [hlist, hroute, h.mem_list]
    split
    · next hut =>
        obtain ⟨rfl, rfl⟩ := hut
        rw [hin, hid]
    · exact Iff.rfl
  · intro fd
    rw [hlist]
    exact h.nodup fd
  · intro u t'
    rw [hroute]
    split
    · intro _
      exact hvalid
    · exact h.valid u t'

section Change

-- `s'` is `s` with the route of `uid` on `t` changed to `r`
variable {r : UserRoute}
  (hroute : ∀ u t', s'.route u t' = if u = uid ∧ t' = t then r else s.route u t')
include hroute

/-- A route that is not counted changes, and is no link then. -/
theorem inv_of_route (hlists : Lists s') (hsmall : s'.tportCount < 2 ^ 32) (hcounts : Counts L s')
    (hlink : ∀ u t', (u, t') ∈ L ↔ s.IsLink u t') (hnot : (uid, t) ∉ L)
    (hr : ¬ (r.inRouteList = true ∧ r.hops = 0)) : Inv s' := by
  refine ⟨hlists, hsmall, L, hcounts, ?_⟩
  intro u t'
  rw [isLink_of_route hroute]
  split
  · next hut =>
      obtain ⟨rfl, rfl⟩ := hut
      simp only [hnot, hr]
  · exact hlink u t'

/-- A route that is not counted becomes a link. -/
theorem inv_pushConnected (hlists : Lists s') (hsmall : s'.tportCount < 2 ^ 32)
    (hcounts : Counts L s') (hlink : ∀ u t', (u, t') ∈ L ↔ s.IsLink u t') (hnot : (uid, t) ∉ L)
    (ht : t < s'.tportCount) (hin : r.inRouteList = true) (hhops : r.hops = 0) :
    Inv (s'.pushConnectedUserRoute uid t) := by
  have hr := (pushConnectedUserRoute_same s' uid t).1
  refine ⟨hlists.congr hr, ?_, insert (uid, t) L, hcounts.pushConnected hnot ht hsmall, ?_⟩
  · rw [hr.count]
    exact hsmall
  · intro u t'
    have hsame : (s'.pushConnectedUserRoute uid t).IsLink u t' ↔ s'.IsLink u t' := by
      unfold IsLink
      rw [hr.route]
    rw [hsame, isLink_of_route hroute, Finset.mem_insert, Prod.mk.injEq, hlink]
    split
    · next hut => simp only [hut, and_self, true_or, hin, hhops]
    · next hut => simp only [hut, false_or]

/-- The counts stay if the route is not counted. -/
theorem counts_of_route (hL : Counts L s) (hnot : (uid, t) ∉ L) (hrefs : s'.refs = s.refs)
    (htab : s'.transportTab = s.transportTab) (hmesh : SameMesh s s')
    (hbridge : s'.bridgeTab = s.bridgeTab) (hcount : s'.tportCount = s.tportCount) :
    Counts L s' := by
  refine hL.congr hrefs htab hmesh hbridge hcount ?_
  intro p hp
  rw [hroute, if_neg]
  rintro ⟨h₁, h₂⟩
  exact hnot (h₁ ▸ h₂ ▸ hp)

end Change

/-- A list changes, and the references to it do not. -/
theorem refs_list (s : SourceRoutes) (f : List (ℕ × ℕ) → List (ℕ × ℕ)) (fd : ℕ) :
    (s.modifyList fd fun l => { l with list := f l.list }).refs = s.refs := by
  funext fd'
  rw [refs_modifyList]
  split
  · next hfd => rw [hfd]; rfl
  · rfl

theorem Inv.pushUserRoute (h : Inv s) (ht : t < s.tportCount) : Inv (s.pushUserRoute uid t) := by
  unfold SourceRoutes.pushUserRoute
  dsimp only
  split
  · exact h
  · next hok =>
      split
      · exact h
      · next hout =>
          have hvalid : (s.route uid t).isValid = true := by
            by_contra hnot
            exact hok (Or.inl hnot)
          have hout : (s.route uid t).inRouteList = false := Bool.not_eq_true _ ▸ hout
          obtain ⟨L, hL, hlink⟩ := h.counts
          have hnot : (uid, t) ∉ L := by
            rw [hlink]
            rintro ⟨hin, -⟩
            rw [hout] at hin
            cases hin
          generalize hs' : (s.modifyRoute uid t fun r =>
            { r with inRouteList := true, listId := (s.route uid t).mcast.fd }).modifyList
              (s.route uid t).mcast.fd (fun l => { l with list := l.list ++ [(uid, t)] }) = s'
          have hroute : ∀ u t', s'.route u t' = if u = uid ∧ t' = t then
              { s.route uid t with inRouteList := true, listId := (s.route uid t).mcast.fd }
              else s.route u t' := by
            intro u t'
            rw [← hs', route_modifyList, route_modifyRoute]
          have hlists : Lists s' := by
            refine h.lists.enter hout hroute rfl hvalid ?_
            intro fd
            rw [← hs', list_modifyList]
            by_cases hfd : fd = (s.route uid t).mcast.fd
            · rw [if_pos hfd, if_pos hfd, hfd]
              rfl
            · rw [if_neg hfd, if_neg hfd]
              rfl
          have hcounts : Counts L s' := by
            subst hs'
            exact counts_of_route hroute hL hnot (refs_list _ (fun l => l ++ [(uid, t)]) _) rfl
              ⟨rfl, rfl⟩ rfl rfl
          have hcount : s'.tportCount = s.tportCount := by
            rw [← hs']
            rfl
          have hsmall : s'.tportCount < 2 ^ 32 := hcount ▸ h.small
          split
          · next hhops =>
              exact inv_pushConnected hroute hlists hsmall hcounts hlink hnot (hcount ▸ ht) rfl
                hhops
          · next hhops =>
              refine inv_of_route hroute hlists hsmall hcounts hlink hnot ?_
              rintro ⟨-, hzero⟩
              exact hhops hzero

/-- A link that was pushed goes out of the list of its old socket and into that of the new
one. -/
theorem Inv.moveConnected (h : Inv s) (ht : t < s.tportCount)
    (hin : (s.route uid t).inRouteList = true)
    (hfd : (s.route uid t).listId ≠ (s.route uid t).mcast.fd) {L : Finset (ℕ × ℕ)}
    (hL : Counts L s) (hlink : ∀ u t', (u, t') ∈ L ↔ s.IsLink u t') (hnot : (uid, t) ∉ L) :
    Inv (((((s.modifyList (s.route uid t).listId fun l =>
      { l with list := l.list.erase (uid, t) }).modifyList (s.route uid t).mcast.fd
        fun l => { l with list := l.list ++ [(uid, t)] }).modifyRoute uid t
          (fun r => { r with listId := (s.route uid t).mcast.fd })).modifyRoute uid t
            (fun r => r.connected 0)).pushConnectedUserRoute uid t) := by
  generalize hs' : (((s.modifyList (s.route uid t).listId fun l =>
    { l with list := l.list.erase (uid, t) }).modifyList (s.route uid t).mcast.fd
      fun l => { l with list := l.list ++ [(uid, t)] }).modifyRoute uid t
        (fun r => { r with listId := (s.route uid t).mcast.fd })).modifyRoute uid t
          (fun r => r.connected 0) = s'
  have hroute : ∀ u t', s'.route u t' = if u = uid ∧ t' = t then
      UserRoute.connected { s.route uid t with
        listId := (s.route uid t).mcast.fd } 0
      else s.route u t' := by
    intro u t'
    rw [← hs', route_modifyRoute, route_modifyRoute, route_modifyRoute,
      route_modifyList, route_modifyList]
    split
    · rw [if_pos ⟨rfl, rfl⟩]
    · rfl
  have hlists : Lists s' := by
    refine h.lists.move hroute hin rfl (Ne.symm hfd) ?_
    intro fd
    rw [← hs', routeList_modifyRoute, routeList_modifyRoute, list_modifyList]
    show _ = if fd = (s.route uid t).mcast.fd then
        (s.routeList fd).list ++ [(uid, t)]
      else if fd = (s.route uid t).listId then
        (s.routeList fd).list.erase (uid, t)
      else (s.routeList fd).list
    by_cases hnew : fd = (s.route uid t).mcast.fd
    · rw [if_pos hnew, if_pos hnew, hnew]
      show ((s.modifyList _ _).routeList _).list ++ [(uid, t)] = _
      rw [list_modifyList, if_neg (Ne.symm hfd)]
    · rw [if_neg hnew, if_neg hnew, list_modifyList]
      split
      · next heq => rw [heq]
      · rfl
  have hcounts : Counts L s' := by
    subst hs'
    refine counts_of_route hroute hL hnot ?_ rfl ⟨rfl, rfl⟩ rfl rfl
    exact (refs_list _ (fun l => l ++ [(uid, t)]) _).trans
      (refs_list s (fun l => l.erase (uid, t)) _)
  have hcount : s'.tportCount = s.tportCount := by
    rw [← hs']
    rfl
  exact inv_pushConnected hroute hlists (hcount ▸ h.small) hcounts hlink hnot
    (hcount ▸ ht) hin rfl

theorem Inv.setConnectedUserRoute (h : Inv s) (ht : t < s.tportCount) :
    Inv (s.setConnectedUserRoute uid t) := by
  unfold SourceRoutes.setConnectedUserRoute
  dsimp only
  split
  · exact h
  · next hok =>
      split
      · exact h.pushUserRoute ht
      · next hin =>
          split
          · exact h
          · next hhops =>
              have hvalid : (s.route uid t).isValid = true := by
                by_contra hnot
                exact hok (Or.inl hnot)
              have hin : (s.route uid t).inRouteList = true := not_not.mp hin
              obtain ⟨L, hL, hlink⟩ := h.counts
              have hnot : (uid, t) ∉ L := by
                rw [hlink]
                rintro ⟨-, hzero⟩
                exact hhops hzero
              split
              · next hfd =>
                  exact h.moveConnected ht hin hfd hL hlink hnot
              · next hfd =>
                  -- in the list of its socket already
                  refine inv_pushConnected (s := s) (r := (s.route uid t).connected 0) ?_ ?_ h.small
                    ?_ hlink hnot ht hin rfl
                  · exact route_modifyRoute
                  · exact h.lists.reroute route_modifyRoute rfl rfl rfl fun _ => rfl
                  · exact counts_of_route route_modifyRoute hL hnot rfl rfl ⟨rfl, rfl⟩ rfl rfl

theorem Inv.popUserRoute (h : Inv s) : Inv (s.popUserRoute uid t) := by
  unfold SourceRoutes.popUserRoute
  dsimp only
  split
  · next hin =>
      obtain ⟨L, hL, hlink⟩ := h.counts
      generalize hs' : (s.modifyRoute uid t fun r => { r with inRouteList := false }).modifyList
        (s.route uid t).listId (fun l => { l with list := l.list.erase (uid, t) }) = s'
      have hroute : ∀ u t', s'.route u t' = if u = uid ∧ t' = t then
          { s.route uid t with inRouteList := false } else s.route u t' := by
        intro u t'
        rw [← hs', route_modifyList, route_modifyRoute]
      have hcounts : Counts L s' := by
        subst hs'
        refine hL.congr (refs_list _ (fun l => l.erase (uid, t)) _) rfl ⟨rfl, rfl⟩ rfl rfl ?_
        intro p hp
        rw [hroute]
        split
        · next hut => rw [hut.1, hut.2]
        · rfl
      have hcount : s'.tportCount = s.tportCount := by
        rw [← hs']
        rfl
      have hid : (s'.route uid t).listId = (s.route uid t).listId := by
        rw [hroute, if_pos ⟨rfl, rfl⟩]
      -- the state before the route is invalidated
      obtain ⟨s₂, L', hs₂, hr₂, hL', hlink'⟩ : ∃ s₂ L', s₂ = (if (s.route uid t).hops = 0 then
            s'.unlink uid t (s.route uid t).listId else s') ∧ SameRoutes s' s₂ ∧ Counts L' s₂ ∧
          ∀ u t', (u, t') ∈ L' ↔ (u, t') ≠ (uid, t) ∧ s.IsLink u t' := by
        by_cases hhops : (s.route uid t).hops = 0
        · refine ⟨s'.unlink uid t (s.route uid t).listId, L.erase (uid, t), (if_pos hhops).symm,
            (unlink_same _ _ _ _).1, ?_, ?_⟩
          · rw [← hid]
            exact hcounts.unlink ((hlink uid t).mpr ⟨hin, hhops⟩)
          · intro u t'
            rw [Finset.mem_erase, hlink]
        · refine ⟨s', L, (if_neg hhops).symm, .refl s', hcounts, ?_⟩
          intro u t'
          rw [hlink]
          constructor
          · intro hl
            refine ⟨?_, hl⟩
            intro heq
            obtain ⟨rfl, rfl⟩ := Prod.mk.inj heq
            exact hhops hl.2
          · exact And.right
      have hroute' : ∀ u t', (s₂.modifyRoute uid t UserRoute.invalidate).route u t' =
          if u = uid ∧ t' = t then UserRoute.invalidate (s₂.route uid t) else s.route u t' := by
        intro u t'
        rw [route_modifyRoute]
        split
        · rfl
        · next hut => rw [hr₂.route, hroute, if_neg hut]
      have hlists : Lists (s₂.modifyRoute uid t UserRoute.invalidate) := by
        refine h.lists.leave hroute' rfl ?_
        intro fd
        rw [routeList_modifyRoute, hr₂.list, ← hs', list_modifyList]
        split
        · next hfd => rw [hfd]; rfl
        · rfl
      have hdone : Counts L' (s₂.modifyRoute uid t UserRoute.invalidate) := by
        refine hL'.congr rfl rfl ⟨rfl, rfl⟩ rfl rfl ?_
        intro p hp
        rw [route_modifyRoute]
        split
        · next hut => rw [hut.1, hut.2]; rfl
        · rfl
      have hgoal : Inv (s₂.modifyRoute uid t UserRoute.invalidate) := by
        refine ⟨hlists, ?_, L', hdone, ?_⟩
        · show s₂.tportCount < 2 ^ 32
          rw [hr₂.count, hcount]
          exact h.small
        · intro u t'
          rw [hlink', isLink_of_route hroute']
          split
          · next hut =>
              obtain ⟨rfl, rfl⟩ := hut
              simp [UserRoute.invalidate]
          · next hut =>
              rw [ne_eq, Prod.mk.injEq]
              simp [hut]
      rw [hs₂] at hgoal
      exact hgoal
  · exact h

/-- The socket and the hops of a route may change if it is no link, and becomes none. -/
theorem Inv.reroute (h : Inv s) {mcast : PeerId} {hops : ℕ}
    (hok : (s.route uid t).inRouteList = false ∨ (¬ s.IsLink uid t ∧ hops ≠ 0)) :
    Inv (s.reroute uid t mcast hops) := by
  obtain ⟨L, hL, hlink⟩ := h.counts
  have hnot : (uid, t) ∉ L := by
    rw [hlink]
    rcases hok with hout | hok
    · rintro ⟨hin, -⟩
      rw [hout] at hin
      cases hin
    · exact hok.1
  have hroute : ∀ u t', (s.reroute uid t mcast hops).route u t' =
      if u = uid ∧ t' = t then { (s.route uid t).connected hops with mcast := mcast }
      else s.route u t' := fun u t' => by rw [SourceRoutes.reroute, route_modifyRoute]
  refine inv_of_route hroute ?_ h.small ?_ hlink hnot ?_
  · exact h.lists.reroute hroute rfl rfl rfl fun _ => rfl
  · exact counts_of_route hroute hL hnot rfl rfl ⟨rfl, rfl⟩ rfl rfl
  · rintro ⟨hin, hzero⟩
    rcases hok with hout | hok
    · rw [show (s.route uid t).inRouteList = true from hin] at hout
      cases hout
    · simp [UserRoute.hops, UserRoute.connected, hok.2] at hzero

/-! ## All the routes of a peer, or of a socket -/

theorem pushUserRoute_count (s : SourceRoutes) (uid t : ℕ) :
    (s.pushUserRoute uid t).tportCount = s.tportCount := by
  unfold SourceRoutes.pushUserRoute
  dsimp only
  split
  · rfl
  · split
    · rfl
    · split
      · exact (pushConnectedUserRoute_same _ _ _).1.count
      · rfl

/-- `pop_user_route` with the part for a link by its name. -/
theorem popUserRoute_eq (s : SourceRoutes) (uid t : ℕ) (hin : (s.route uid t).inRouteList = true) :
    s.popUserRoute uid t =
      SourceRoutes.modifyRoute
        (if (s.route uid t).hops = 0 then
          ((s.modifyRoute uid t fun r => { r with inRouteList := false }).modifyList
            (s.route uid t).listId fun l => { l with list := l.list.erase (uid, t) }).unlink uid t
              (s.route uid t).listId
        else (s.modifyRoute uid t fun r => { r with inRouteList := false }).modifyList
          (s.route uid t).listId fun l => { l with list := l.list.erase (uid, t) })
        uid t UserRoute.invalidate := if_pos hin

theorem popUserRoute_count (s : SourceRoutes) (uid t : ℕ) :
    (s.popUserRoute uid t).tportCount = s.tportCount := by
  by_cases hin : (s.route uid t).inRouteList = true
  · rw [popUserRoute_eq s uid t hin]
    show (if (s.route uid t).hops = 0 then _ else _ : SourceRoutes).tportCount = _
    split
    · exact (unlink_same _ _ _ _).1.count
    · rfl
  · rw [SourceRoutes.popUserRoute]
    exact congrArg SourceRoutes.tportCount (if_neg hin)

theorem inv_foldl {body : SourceRoutes → ℕ → SourceRoutes} {n : ℕ}
    (hbody : ∀ s i, Inv s → s.tportCount = n → i < n →
      Inv (body s i) ∧ (body s i).tportCount = n) {l : List ℕ} (hl : ∀ i ∈ l, i < n)
    (h : Inv s) (hn : s.tportCount = n) : Inv (l.foldl body s) := by
  induction l generalizing s with
  | nil => exact h
  | cons i l ih =>
    obtain ⟨hinv, hcount⟩ := hbody s i h hn (hl i List.mem_cons_self)
    exact ih (fun j hj => hl j (List.mem_cons_of_mem i hj)) hinv hcount

theorem Inv.pushSourceRoute (h : Inv s) : Inv (s.pushSourceRoute uid) := by
  refine inv_foldl ?_ (fun i hi => List.mem_range.mp hi) h rfl
  intro s' i hs' hcount hi
  rw [← hcount] at hi ⊢
  unfold pushSourceStep
  dsimp only
  split
  · split
    · exact ⟨hs'.pushUserRoute hi, pushUserRoute_count s' uid i⟩
    · exact ⟨hs'.popUserRoute, popUserRoute_count s' uid i⟩
  · exact ⟨hs', rfl⟩

theorem Inv.popSourceRoute (h : Inv s) : Inv (s.popSourceRoute uid) := by
  refine inv_foldl ?_ (fun i hi => List.mem_range.mp hi) h rfl
  intro s' i hs' hcount hi
  rw [← hcount] at hi ⊢
  unfold popSourceStep
  split
  · exact ⟨hs'.popUserRoute, popUserRoute_count s' uid i⟩
  · exact ⟨hs', rfl⟩

/-- A route that is popped leaves its list. -/
theorem popUserRoute_list (hin : (s.route uid t).inRouteList = true) :
    ((s.popUserRoute uid t).routeList (s.route uid t).listId).list =
      (s.routeList (s.route uid t).listId).list.erase (uid, t) := by
  rw [popUserRoute_eq s uid t hin, routeList_modifyRoute]
  split
  · exact ((unlink_same _ _ _ _).1.list _).trans (by rw [list_modifyList, if_pos rfl]; rfl)
  · rw [list_modifyList, if_pos rfl]
    rfl

/-- The loop ends with an empty list. -/
theorem Inv.closeLoop (h : Inv s) {fd fuel : ℕ} (hfuel : (s.routeList fd).list.length = fuel) :
    Inv (closeLoop fd fuel s) ∧ ((closeLoop fd fuel s).routeList fd).list = [] := by
  induction fuel generalizing s with
  | zero => exact ⟨h, List.length_eq_zero_iff.mp hfuel⟩
  | succ fuel ih =>
    rw [SourceRoutes.closeLoop]
    cases hlist : (s.routeList fd).list with
    | nil =>
      rw [hlist] at hfuel
      cases hfuel
    | cons p ps =>
      have hmem : (p.1, p.2) ∈ (s.routeList fd).list := by
        rw [hlist]
        exact List.mem_cons_self
      obtain ⟨hin, hid⟩ := (h.lists.mem_list fd p.1 p.2).mp hmem
      dsimp only
      rw [if_pos hin]
      refine ih h.popUserRoute ?_
      have hpop := popUserRoute_list hin
      rw [hid, hlist] at hpop
      rw [hpop, List.erase_cons_head]
      rw [hlist] at hfuel
      exact Nat.succ.inj hfuel

theorem Inv.setSock (h : Inv s) (fd : ℕ) (pid : Option PeerId) :
    Inv { s with sock := Function.update s.sock fd pid } := by
  obtain ⟨hlists, hsmall, L, hL, hlink⟩ := h
  refine ⟨⟨hlists.mem_list, hlists.nodup, hlists.valid⟩, hsmall, L, ?_, hlink⟩
  exact hL.congr rfl rfl ⟨rfl, rfl⟩ rfl rfl fun _ _ => rfl

/-! ## What is promised -/

instance (s : SourceRoutes) (uid t : ℕ) : Decidable (s.IsLink uid t) :=
  inferInstanceAs (Decidable (_ ∧ _))

/-- The lists hold what they should, and the counts are those of the links. -/
structure Balanced (s : SourceRoutes) : Prop where
  list : ∀ fd uid t, (uid, t) ∈ (s.routeList fd).list ↔
    (s.route uid t).inRouteList = true ∧ (s.route uid t).listId = fd
  once : ∀ fd, (s.routeList fd).list.Nodup
  refs : ∀ fd, (s.routeList fd).sysRouteRefs =
    ((s.routeList fd).list.countP fun p => (s.route p.1 p.2).hops = 0) % 2 ^ 32
  connected : ∀ uid t, uid ∈ (s.transportTab t).uidConnected.members ↔ s.IsLink uid t
  mesh : ∀ m uid, (s.uidInMesh m).count uid = ((Finset.range s.tportCount).filter fun t =>
    (s.transportTab t).meshId = some m ∧ s.IsLink uid t).card
  csum : ∀ m (uids : Finset ℕ), (∀ uid, uid ∈ uids ↔ (s.uidInMesh m).count uid ≠ 0) →
    s.meshCsum m = uids.fold (fun x y : Nonce => x ^^^ y) 0 s.peerNonce

theorem Inv.balanced (h : Inv s) : Balanced s := by
  obtain ⟨hlists, -, L, hL, hlink⟩ := h
  refine ⟨hlists.mem_list, hlists.nodup, ?_, ?_, ?_, ?_⟩
  · intro fd
    have hset : s.listLinks L fd =
        ((s.routeList fd).list.filter fun p => (s.route p.1 p.2).hops = 0).toFinset := by
      ext ⟨u, t⟩
      rw [listLinks, Finset.mem_filter, hlink, List.mem_toFinset, List.mem_filter,
        hlists.mem_list, IsLink]
      simp only [decide_eq_true_eq]
      constructor
      · rintro ⟨⟨hin, hhops⟩, hid⟩
        exact ⟨⟨hin, hid⟩, hhops⟩
      · rintro ⟨⟨hin, hid⟩, hhops⟩
        exact ⟨⟨hin, hhops⟩, hid⟩
    have hrefs := hL.refs fd
    rw [hset, List.toFinset_card_of_nodup ((hlists.nodup fd).filter _),
      ← List.countP_eq_length_filter] at hrefs
    exact hrefs
  · intro u t
    rw [← hlink]
    exact hL.members u t
  · intro m u
    have hset : s.meshLinks L m u = ((Finset.range s.tportCount).filter fun t =>
        (s.transportTab t).meshId = some m ∧ s.IsLink u t).image fun t => (u, t) := by
      ext ⟨v, t⟩
      rw [meshLinks, Finset.mem_filter, Finset.mem_image]
      constructor
      · rintro ⟨hmem, rfl, hid⟩
        exact ⟨t, Finset.mem_filter.mpr ⟨Finset.mem_range.mpr (hL.inTable _ hmem), hid,
          (hlink v t).mp hmem⟩, rfl⟩
      · rintro ⟨i, hi, heq⟩
        obtain ⟨rfl, rfl⟩ := Prod.mk.inj heq
        obtain ⟨-, hid, hl⟩ := Finset.mem_filter.mp hi
        exact ⟨(hlink u i).mpr hl, rfl, hid⟩
    rw [hL.mesh.count, hset, Finset.card_image_of_injective]
    intro i j hij
    exact (Prod.mk.inj hij).2
  · intro m uids huids
    have hset : uids = (s.uidInMesh m).bits := by
      ext u
      rw [huids, BitRefCount.count_ne_zero]
    rw [hset]
    exact hL.mesh.csum m

/-- Before there are routes. -/
structure NoRoutes (s : SourceRoutes) : Prop where
  small : s.tportCount < 2 ^ 32
  route : ∀ uid t, (s.route uid t).inRouteList = false
  list : ∀ fd, s.routeList fd = ⟨[], 0⟩
  members : ∀ t, (s.transportTab t).uidConnected.members = ∅
  mesh : ∀ m, s.uidInMesh m = BitRefCount.empty
  csum : ∀ m, s.meshCsum m = 0

theorem NoRoutes.inv (h : NoRoutes s) : Inv s := by
  refine ⟨⟨?_, ?_, ?_⟩, h.small, ∅, ⟨?_, ?_, ?_, ?_, ?_, ?_⟩, ?_⟩
  · intro fd u t
    rw [h.list, h.route]
    simp
  · intro fd
    rw [h.list]
    exact List.nodup_nil
  · intro u t hin
    rw [h.route] at hin
    cases hin
  · intro p hp
    exact absurd hp (Finset.notMem_empty p)
  · intro fd
    rw [SourceRoutes.refs, h.list]
    rfl
  · intro u t
    rw [SourceRoutes.members, h.members]
    simp
  · intro m
    rw [h.mesh]
    exact BitRefCount.wf_empty
  · intro m u
    rw [h.mesh]
    rfl
  · intro m
    rw [h.mesh, h.csum]
    rfl
  · intro u t
    simp [IsLink, h.route]

end SourceRoutes

namespace UserRoutes

variable {s : UserRoutes}

/-- `find_inbox_peer` finds a peer to go through. -/
def FindsPeer (s : UserRoutes) (uid t : ℕ) (cost : ℕ → ℕ) : Prop :=
  s.isMcast t ∧ ¬ s.url uid t ∧
    ∃ m, s.closestPeerRoute t uid cost = some m ∧ (s.route m t).isValid ∧ s.url m t

/-- `find_inbox_peer` does not find one for a link. -/
def InboxOk (s : UserRoutes) : RouteAct → Prop
  | .findInboxPeer uid t cost => s.FindsPeer uid t cost → ¬ s.IsLink uid t
  | _ => True

theorem popUserRoute_out (s : SourceRoutes) (uid t : ℕ)
    (hin : (s.route uid t).inRouteList = true) :
    ((s.popUserRoute uid t).route uid t).inRouteList = false := by
  rw [SourceRoutes.popUserRoute_eq s uid t hin, SourceRoutes.route_modifyRoute, if_pos ⟨rfl, rfl⟩]
  rfl

/-- `add_user_route` takes the route out of its list first. -/
theorem inv_addUserRoute (h : s.Inv) {uid t : ℕ} (ht : t < s.tportCount) (mcast : PeerId)
    (hops : ℕ) (url auth : Bool) : (s.addUserRoute uid t mcast hops url auth).Inv := by
  obtain ⟨s₁, hs₁, hinv₁, hcount₁, hout⟩ : ∃ s₁ : UserRoutes,
      s₁ = (if (s.route uid t).isValid ∧ (s.route uid t).inRouteList then
        s.withRoutes (s.popUserRoute uid t) else s) ∧
      s₁.Inv ∧ s₁.tportCount = s.tportCount ∧ (s₁.route uid t).inRouteList = false := by
    by_cases hin : (s.route uid t).inRouteList = true
    · refine ⟨s.withRoutes (s.popUserRoute uid t), ?_, h.popUserRoute,
        SourceRoutes.popUserRoute_count _ _ _, popUserRoute_out _ _ _ hin⟩
      rw [if_pos ⟨h.lists.valid uid t hin, hin⟩]
    · refine ⟨s, ?_, h, rfl, Bool.not_eq_true _ ▸ hin⟩
      rw [if_neg (fun hand => hin hand.2)]
  have hinv₂ : (s₁.reroute uid t mcast hops).Inv := hinv₁.reroute (Or.inl hout)
  have ht₂ : t < (s₁.reroute uid t mcast hops).tportCount := hcount₁ ▸ ht
  unfold addUserRoute
  dsimp only
  rw [← hs₁]
  cases auth <;> cases url
  · exact hinv₂
  · exact hinv₂
  · exact hinv₂.pushUserRoute ht₂
  · exact hinv₂.pushUserRoute ht₂

theorem inv_findInboxPeer (h : s.Inv) {uid t : ℕ} (ht : t < s.tportCount) {cost : ℕ → ℕ}
    (hok : s.FindsPeer uid t cost → ¬ s.IsLink uid t) : (s.findInboxPeer uid t cost).Inv := by
  unfold findInboxPeer
  split
  · next hmcast =>
      cases hm : s.closestPeerRoute t uid cost with
      | none => exact h
      | some m =>
        dsimp only
        split
        · next hpeer =>
            have hfinds : s.FindsPeer uid t cost := ⟨hmcast.1, hmcast.2, m, hm, hpeer⟩
            have hinv : (s.reroute uid t (s.route m t).mcast 1).Inv :=
              h.reroute (Or.inr ⟨hok hfinds, Nat.one_ne_zero⟩)
            exact hinv.pushUserRoute ht
        · exact h
  · exact h

theorem inv_findAdjacentRoute (h : s.Inv) {uid t : ℕ} (ht : t < s.tportCount) (src : ℕ) :
    (s.findAdjacentRoute uid t src).Inv := by
  unfold findAdjacentRoute
  split
  · next hout =>
      dsimp only
      split
      · have hinv : (s.reroute uid t (s.route src t).mcast 1).Inv :=
          h.reroute (Or.inl (Bool.not_eq_true _ ▸ hout.1))
        cases s.url src t
        · exact hinv.pushUserRoute ht
        · exact hinv.pushUserRoute ht
      · exact h
  · exact h

theorem inv_step (h : s.Inv) {e : RouteAct} (hok : s.InboxOk e) : (s.step e).Inv := by
  unfold UserRoutes.step
  split
  · next htab =>
      cases e with
      | addUserRoute uid t mcast hops url auth =>
        exact inv_addUserRoute h (decide_eq_true_eq.mp htab) mcast hops url auth
      | findInboxPeer uid t cost => exact inv_findInboxPeer h (decide_eq_true_eq.mp htab) hok
      | findAdjacentRoute uid t src =>
        exact inv_findAdjacentRoute h (decide_eq_true_eq.mp htab) src
      | setUcastUrl uid t => exact h
      | pushUserRoute uid t => exact h.pushUserRoute (decide_eq_true_eq.mp htab)
      | setConnectedUserRoute uid t => exact h.setConnectedUserRoute (decide_eq_true_eq.mp htab)
      | popUserRoute uid t => exact h.popUserRoute
      | pushSourceRoute uid => exact h.pushSourceRoute
      | popSourceRoute uid => exact h.popSourceRoute
      | closeSourceRoute fd => exact (h.closeLoop rfl).1
      | setSock fd pid => exact h.setSock fd pid
  · exact h

/-- **The counts are those of the links** in every run in which `find_inbox_peer` finds
no way around a link. -/
theorem balanced_of_inboxOk (hstart : s.NoRoutes) {es : List RouteAct}
    (h : Run.AllOk step InboxOk s es) : (es.foldl step s).Balanced := by
  have hreach : Run.Reach step InboxOk s s := .start
  have hinv : ∀ s', Run.Reach step InboxOk s s' → s'.toSourceRoutes.Inv := by
    intro s' hs'
    induction hs' with
    | start => exact hstart.inv
    | snoc e _ hok ih => exact inv_step ih hok
  exact (hinv _ (hreach.foldl h)).balanced

/-- One multicast transport and nobody on it. -/
def noPeers : UserRoutes where
  sock fd := some ⟨fd, 0⟩
  nonce := 9
  startTime := 100
  bridgeTab uid := some ⟨BitVec.ofNat 128 uid, 200⟩
  route _ _ := ⟨⟨0, 0⟩, false, false, false, 0⟩
  tportCount := 1
  transportTab _ := ⟨text "pgm", text "pgm", none, none, AdjacencySpace.new, ∅, 0⟩
  routeList _ := ⟨[], 0⟩
  uidInMesh _ := BitRefCount.empty
  meshCsum _ := 0
  uidInDevice _ := BitRefCount.empty
  adjacencyChange := []
  linkStateSeqno := 0
  url _ _ := false
  isMcast _ := true

theorem noRoutes_noPeers : noPeers.NoRoutes where
  small := by decide
  route _ _ := rfl
  list _ := rfl
  members _ := rfl
  mesh _ := rfl
  csum _ := rfl

/-- Peer `2` is a link with a url, and peer `1`, which is not, goes through it. -/
def throughPeer : List RouteAct :=
  [.addUserRoute 2 0 ⟨5, 0⟩ 0 true true, .addUserRoute 1 0 ⟨5, 0⟩ 1 false true,
    .findInboxPeer 1 0 fun _ => 10]

theorem balanced_of_inboxOk_throughPeer :
    noPeers.NoRoutes ∧ Run.AllOk step InboxOk noPeers throughPeer ∧
      (throughPeer.foldl step noPeers).Balanced := by
  have hok : Run.AllOk step InboxOk noPeers throughPeer := by
    refine ⟨trivial, trivial, ?_, trivial⟩
    intro _
    decide
  exact ⟨noRoutes_noPeers, hok, balanced_of_inboxOk noRoutes_noPeers hok⟩

/-- Both peers are links, and only peer `2` has a url. -/
def aroundLink : List RouteAct :=
  [.addUserRoute 2 0 ⟨5, 0⟩ 0 true true, .addUserRoute 1 0 ⟨5, 0⟩ 0 false true,
    .findInboxPeer 1 0 fun _ => 10]

theorem aroundLink_not_balanced :
    ¬ ∀ (s : UserRoutes) (es : List RouteAct), s.NoRoutes → (es.foldl step s).Balanced := by
  intro h
  have hrefs := (h noPeers aroundLink noRoutes_noPeers).refs 5
  exact absurd hrefs (by decide)

end UserRoutes

end Raims
