import Raims.LinkState.AdjChangeList
import Raims.Lib.Run

/-!
# The costs of the transports (`TransportRoute::update_cost`)

A peer's message may change the cost of the transport it came in on. The change
queues a record for that transport, and the record is sent with the cost the
transport has by then. A mesh is several transports: the new cost is copied to the
others, for which nothing is queued, so the peers go on with the cost they were
told before.
-/

namespace Raims

def COST_BAD : UInt32 := 1000000000

/-! ## The message of a peer and one transport -/

namespace AdjacencySpace

variable (set : AdjacencySpace)

/-- The tests that make `update_cost` return false. -/
def refuses (isMcast : Bool) (uid remTportId : ℕ) : Bool :=
  set.cost.maxCost = COST_BAD ∨
    set.remUid ≠ 0 ∧ !isMcast ∧ (uid ≠ set.remUid ∨ remTportId ≠ set.remTportId)

/-- The set with the remote end the peer gives, if it is changed. `younger` says
that the peer which is the remote end now is gone or started after this one. -/
def updateRem (younger : Bool) (uid remTportId : ℕ) : Option AdjacencySpace :=
  if set.remUid = 0 then some { set with remUid := uid, remTportId := remTportId }
  else if set.remUid = uid then
    if set.remTportId = 0 ∨ remTportId < set.remTportId then
      some { set with remTportId := remTportId }
    else none
  else if younger then some { set with remUid := uid, remTportId := remTportId }
  else none

/-- `chg`: a cost that differs is taken, by a transport that advertises its own
from an older peer only. -/
def takes (isAdvertised older : Bool) (cost : AdjCost) : Bool :=
  set.cost ≠ cost ∧ (!isAdvertised ∨ older)

end AdjacencySpace

/-! ## The transports of a node -/

/-- The flags of a `TransportRoute`, and `is_advertised` of its set. -/
structure TportFlags where
  isMcast : Bool
  isMesh : Bool
  isShutdown : Bool
  isAdvertised : Bool
deriving DecidableEq

/-- The routes, and what `update_cost` reads besides them; `sent` has the records
of all messages that `send_adjacency_change` made. -/
structure CostState where
  routes : SourceRoutes
  flags : ℕ → TportFlags
  /-- `AUTHENTICATED_STATE` -/
  authenticated : ℕ → Bool
  sent : List AdjacencyRec

namespace CostState

/-- A node before its first link. -/
def start (routes : SourceRoutes) (flags : ℕ → TportFlags)
    (authenticated : ℕ → Bool) : CostState where
  routes :=
    { routes with
      transportTab := fun t =>
        { routes.transportTab t with
          uidConnected := { (routes.transportTab t).uidConnected with members := ∅ } }
      adjacencyChange := [] }
  flags := flags
  authenticated := authenticated
  sent := []

variable (g : CostState) (uid t : ℕ)

def uidConnected : AdjacencySpace := (g.routes.transportTab t).uidConnected

/-- `id` is another transport of the mesh of `t`. -/
def sibling (id : ℕ) : Bool :=
  id < g.routes.tportCount ∧ id ≠ t ∧ !(g.flags id).isShutdown ∧ (g.flags id).isMesh ∧
    (g.routes.transportTab id).meshId = (g.routes.transportTab t).meshId

/-- The peer at the remote end is gone or started after `uid`. -/
def remYounger : Bool :=
  !g.authenticated (g.uidConnected t).remUid ∨
    g.routes.peerStartTime uid < g.routes.peerStartTime (g.uidConnected t).remUid

/-- The cost that `update_cost` takes from the message, if it does. -/
def takenCost (cost : Option AdjCost) : Option AdjCost :=
  cost.filter fun c => (g.uidConnected t).takes (g.flags t).isAdvertised
    (g.routes.peerStartTime uid < g.routes.startTime) c

/-- The transports with a new set at `t`. -/
def putSet (set : AdjacencySpace) : CostState :=
  { g with routes := g.routes.modifyTport t fun rte => { rte with uidConnected := set } }

def appendAdjacency (uid : ℕ) : CostState :=
  { g with
    routes := { g.routes with
      adjacencyChange := appendChange g.routes.adjacencyChange
        ⟨uid, t, g.routes.linkStateSeqno + 1, true⟩ } }

/-- The loop over the other transports of the mesh. -/
def copyCost (cost : AdjCost) : CostState :=
  { g with
    routes := { g.routes with
      transportTab := fun id =>
        let rte := g.routes.transportTab id
        if g.sibling t id then
          { rte with uidConnected := { rte.uidConnected with cost := cost } }
        else rte } }

/-- `update_cost`, and what it returns. The name of the peer's transport is only
printed. -/
def updateCost (cost : Option AdjCost) (remTportId : ℕ) : CostState × Bool :=
  let set := g.uidConnected t
  if set.refuses (g.flags t).isMcast uid remTportId then (g, false)
  else
    let rem := set.updateRem (g.remYounger uid t) uid remTportId
    match g.takenCost uid t cost with
    | none =>
      match rem with
      | none => (g, true)
      | some set => ((g.putSet t set).appendAdjacency t uid, true)
    | some c =>
      let g := (g.putSet t { rem.getD set with cost := c }).appendAdjacency t uid
      (if (g.flags t).isMesh then g.copyCost t c else g, true)

/-! ## Runs -/

inductive Event where
  | route (e : SourceRoutes.RouteEvent)
  | updateCost (uid t : ℕ) (cost : Option AdjCost) (remTportId : ℕ)
  | setFlags (t : ℕ) (flags : TportFlags)
  | setAuthenticated (uid : ℕ) (b : Bool)
  | sendAdjacencyChange

def step : Event → CostState
  | .route e => { g with routes := g.routes.step e }
  | .updateCost uid t cost remTportId => (g.updateCost uid t cost remTportId).1
  | .setFlags t f => { g with flags := Function.update g.flags t f }
  | .setAuthenticated uid b =>
    { g with authenticated := Function.update g.authenticated uid b }
  | .sendAdjacencyChange =>
    let m := g.routes.sendAdjacencyChange
    { g with routes := m.1, sent := g.sent ++ m.2.2 }

/-- The cost in the last record sent for a transport. -/
def lastSent : Option AdjCost :=
  ((g.sent.filter fun rec => rec.tportid = some t).getLast?).map AdjacencyRec.cost

/-- The peers were told the cost of every transport that has a link. -/
def CostsTold : Prop :=
  ∀ t, (g.uidConnected t).members ≠ ∅ → g.lastSent t = some (g.uidConnected t).cost

/-- A record for the transport is queued. -/
def Queued : Prop := ∃ p ∈ g.routes.adjacencyChange, p.tportid = t

instance : Decidable (g.Queued t) :=
  inferInstanceAs (Decidable (∃ p ∈ g.routes.adjacencyChange, p.tportid = t))

/-- A message whose cost is taken on a transport of a mesh finds the other
transports of the mesh without links, or at that cost, or with a record queued. -/
def SiblingsTold : Event → Prop
  | .updateCost uid t cost remTportId =>
    ¬ (g.uidConnected t).refuses (g.flags t).isMcast uid remTportId →
    (g.flags t).isMesh → ∀ c ∈ g.takenCost uid t cost,
    ∀ id < g.routes.tportCount, g.sibling t id → (g.uidConnected id).members = ∅ ∨
      (g.uidConnected id).cost = c ∨ g.Queued id
  | _ => True

end CostState

/-! ## The routes leave the costs alone -/

namespace SourceRoutes

def SameCosts (s s' : SourceRoutes) : Prop :=
  ∀ t, (s'.transportTab t).uidConnected.cost = (s.transportTab t).uidConnected.cost

section Costs

variable {s s' s'' : SourceRoutes} {uid t : ℕ}

theorem SameCosts.trans (h : SameCosts s s') (h' : SameCosts s' s'') : SameCosts s s'' :=
  fun t => (h' t).trans (h t)

theorem sameCosts_of_tab (h : s'.transportTab = s.transportTab) : SameCosts s s' := by
  intro t
  rw [h]

theorem sameCosts_modifyRoute (f : UserRoute → UserRoute) :
    SameCosts s (s.modifyRoute uid t f) := sameCosts_of_tab rfl

theorem sameCosts_modifyList (fd : ℕ) (f : UserRouteList → UserRouteList) :
    SameCosts s (s.modifyList fd f) := sameCosts_of_tab rfl

theorem sameCosts_modifyTport {f : TransportRoute → TransportRoute}
    (hf : ∀ r, (f r).uidConnected.cost = r.uidConnected.cost) :
    SameCosts s (s.modifyTport t f) := by
  intro t'
  by_cases h : t' = t
  · subst h
    simp [modifyTport, hf]
  · simp [modifyTport, h]

theorem sameCosts_refShared : SameCosts s (s.refShared uid t) := by
  simp only [refShared]
  split <;> exact sameCosts_of_tab rfl

theorem sameCosts_derefShared : SameCosts s (s.derefShared uid t) := by
  simp only [derefShared]
  split <;> exact sameCosts_of_tab rfl

theorem sameCosts_connectUid : SameCosts s (s.connectUid uid t) := by
  simp only [connectUid]
  split
  · exact sameCosts_of_tab rfl
  · intro t'
    by_cases h : t' = t
    · subst h
      simp [modifyTport]
    · simp [modifyTport, h]

theorem sameCosts_disconnectUid : SameCosts s (s.disconnectUid uid t) := by
  simp only [disconnectUid]
  split
  · exact sameCosts_of_tab rfl
  · intro t'
    by_cases h : t' = t
    · subst h
      simp [modifyTport]
    · simp [modifyTport, h]

theorem sameCosts_refSysRoute (fd : ℕ) : SameCosts s (s.refSysRoute t fd) := by
  simp only [refSysRoute]
  split
  · exact (sameCosts_modifyList fd _).trans (sameCosts_modifyTport fun _ => rfl)
  · exact sameCosts_modifyList fd _

theorem sameCosts_derefSysRoute (fd : ℕ) : SameCosts s (s.derefSysRoute t fd) := by
  simp only [derefSysRoute]
  split
  · exact (sameCosts_modifyList fd _).trans (sameCosts_modifyTport fun _ => rfl)
  · exact sameCosts_modifyList fd _

theorem sameCosts_addOldest : SameCosts s (s.addOldest uid t) := by
  simp only [addOldest]
  split
  · exact sameCosts_modifyTport fun _ => rfl
  · exact sameCosts_of_tab rfl

theorem sameCosts_removeOldest : SameCosts s (s.removeOldest uid t) := by
  simp only [removeOldest]
  split
  · exact sameCosts_modifyTport fun _ => rfl
  · exact sameCosts_of_tab rfl

theorem sameCosts_pushConnectedUserRoute : SameCosts s (s.pushConnectedUserRoute uid t) :=
  ((sameCosts_refShared.trans sameCosts_connectUid).trans
    (sameCosts_refSysRoute _)).trans sameCosts_addOldest

theorem sameCosts_pushUserRoute : SameCosts s (s.pushUserRoute uid t) := by
  simp only [pushUserRoute]
  split
  · exact sameCosts_of_tab rfl
  · split
    · exact sameCosts_of_tab rfl
    · split
      · exact ((sameCosts_modifyRoute _).trans (sameCosts_modifyList _ _)).trans
          sameCosts_pushConnectedUserRoute
      · exact (sameCosts_modifyRoute _).trans (sameCosts_modifyList _ _)

theorem sameCosts_setConnectedUserRoute : SameCosts s (s.setConnectedUserRoute uid t) := by
  simp only [setConnectedUserRoute]
  split
  · exact sameCosts_of_tab rfl
  · split
    · exact sameCosts_pushUserRoute
    · split
      · exact sameCosts_of_tab rfl
      · refine SameCosts.trans (SameCosts.trans ?_ (sameCosts_modifyRoute _))
          sameCosts_pushConnectedUserRoute
        split <;> exact sameCosts_of_tab rfl

theorem sameCosts_popUserRoute : SameCosts s (s.popUserRoute uid t) := by
  simp only [popUserRoute]
  split
  · split
    · refine SameCosts.trans ?_ (sameCosts_modifyRoute _)
      refine SameCosts.trans ?_ sameCosts_removeOldest
      refine SameCosts.trans ?_ (sameCosts_derefSysRoute _)
      refine SameCosts.trans (SameCosts.trans ?_ sameCosts_derefShared) sameCosts_disconnectUid
      exact (sameCosts_modifyRoute _).trans (sameCosts_modifyList _ _)
    · exact ((sameCosts_modifyRoute _).trans (sameCosts_modifyList _ _)).trans
        (sameCosts_modifyRoute _)
  · exact sameCosts_of_tab rfl

/-- A loop over the transports. -/
theorem sameCosts_loop {body : SourceRoutes → ℕ → SourceRoutes}
    (hbody : ∀ s i, SameCosts s (body s i)) (l : List ℕ) (s : SourceRoutes) :
    SameCosts s (l.foldl body s) := by
  induction l generalizing s with
  | nil => exact sameCosts_of_tab rfl
  | cons i l ih => exact (hbody s i).trans (ih (body s i))

theorem sameCosts_step (s : SourceRoutes) (e : RouteEvent) : SameCosts s (s.step e) := by
  cases e with
  | pushSourceRoute uid =>
    refine sameCosts_loop (fun s i => ?_) _ s
    simp only [pushSourceStep]
    split
    · split
      · exact sameCosts_pushUserRoute
      · exact sameCosts_popUserRoute
    · exact sameCosts_of_tab rfl
  | popSourceRoute uid =>
    refine sameCosts_loop (fun s i => ?_) _ s
    simp only [popSourceStep]
    split
    · exact sameCosts_popUserRoute
    · exact sameCosts_of_tab rfl
  | pushUserRoute uid t => exact sameCosts_pushUserRoute
  | popUserRoute uid t => exact sameCosts_popUserRoute
  | setConnectedUserRoute uid t => exact sameCosts_setConnectedUserRoute
  | setRoute uid t mcast hops => exact sameCosts_of_tab rfl
  | setSock fd pid => exact sameCosts_of_tab rfl

end Costs

end SourceRoutes

namespace CostState

/-! ## What each event does to a transport -/

section Parts

variable (g : CostState) (t : ℕ)

theorem uidConnected_putSet (set : AdjacencySpace) (t' : ℕ) :
    (g.putSet t set).uidConnected t' = if t' = t then set else g.uidConnected t' := by
  by_cases h : t' = t
  · subst h
    simp [uidConnected, putSet, SourceRoutes.modifyTport]
  · simp [uidConnected, putSet, SourceRoutes.modifyTport, h]

theorem sibling_putSet (set : AdjacencySpace) (id : ℕ) :
    (g.putSet t set).sibling t id = g.sibling t id := by
  by_cases h : id = t
  · simp [sibling, h]
  · simp [sibling, putSet, SourceRoutes.modifyTport, h]

theorem uidConnected_copyCost (c : AdjCost) (id : ℕ) :
    (g.copyCost t c).uidConnected id =
      if g.sibling t id then { g.uidConnected id with cost := c } else g.uidConnected id := by
  simp only [uidConnected, copyCost]
  split <;> rfl

theorem queued_appendAdjacency (uid t' : ℕ) :
    (g.appendAdjacency t uid).Queued t' ↔ g.Queued t' ∨ t' = t := by
  simp only [Queued, appendAdjacency, appendChange]
  split
  · next hex =>
      obtain ⟨q, hq, -, ht, -⟩ := hex
      refine ⟨Or.inl, ?_⟩
      rintro (h | rfl)
      · exact h
      · exact ⟨q, hq, ht⟩
  · constructor
    · rintro ⟨p, hp, rfl⟩
      rcases List.mem_append.mp hp with hp | hp
      · exact Or.inl ⟨p, hp, rfl⟩
      · rw [List.mem_singleton.mp hp]
        exact Or.inr rfl
    · rintro (⟨p, hp, rfl⟩ | rfl)
      · exact ⟨p, List.mem_append_left _ hp, rfl⟩
      · exact ⟨_, List.mem_append_right _ (List.mem_singleton_self _), rfl⟩

end Parts

section Update

variable {g : CostState} {uid t : ℕ} {cost : Option AdjCost} {remTportId : ℕ}

theorem members_updateRem {set set' : AdjacencySpace} {younger : Bool}
    (h : set.updateRem younger uid remTportId = some set') :
    set'.members = set.members ∧ set'.cost = set.cost := by
  unfold AdjacencySpace.updateRem at h
  split at h
  · cases h
    exact ⟨rfl, rfl⟩
  · split at h
    · split at h
      · cases h
        exact ⟨rfl, rfl⟩
      · cases h
    · split at h
      · cases h
        exact ⟨rfl, rfl⟩
      · cases h

/-- `update_cost` when it takes the cost of the message. -/
theorem updateCost_of_taken
    (href : ¬ (g.uidConnected t).refuses (g.flags t).isMcast uid remTportId)
    {c : AdjCost} (hc : g.takenCost uid t cost = some c) :
    ∃ set, set.members = (g.uidConnected t).members ∧
      (g.updateCost uid t cost remTportId).1 =
        if (g.flags t).isMesh then ((g.putSet t set).appendAdjacency t uid).copyCost t c
        else (g.putSet t set).appendAdjacency t uid := by
  let set := g.uidConnected t
  let rem := set.updateRem (g.remYounger uid t) uid remTportId
  refine ⟨{ rem.getD set with cost := c }, ?_, ?_⟩
  · show (rem.getD set).members = set.members
    cases hrem : rem with
    | none => rfl
    | some set' => exact (members_updateRem hrem).1
  · simp only [updateCost, href, hc]
    rfl

/-- The outcomes of `update_cost`: nothing, a new set with a record queued for
it, and in a mesh the copies of the cost besides. -/
theorem updateCost_cases (g : CostState) (uid t : ℕ) (cost : Option AdjCost)
    (remTportId : ℕ) :
    (g.updateCost uid t cost remTportId).1 = g ∨
    ∃ set, set.members = (g.uidConnected t).members ∧
      ((g.updateCost uid t cost remTportId).1 = (g.putSet t set).appendAdjacency t uid ∨
        ¬ (g.uidConnected t).refuses (g.flags t).isMcast uid remTportId ∧
        (g.flags t).isMesh ∧ ∃ c ∈ g.takenCost uid t cost,
        (g.updateCost uid t cost remTportId).1 =
          ((g.putSet t set).appendAdjacency t uid).copyCost t c) := by
  by_cases href : (g.uidConnected t).refuses (g.flags t).isMcast uid remTportId
  · left
    simp only [updateCost, href, if_true]
  · cases hc : g.takenCost uid t cost with
    | some c =>
      obtain ⟨set, hmem, heq⟩ := updateCost_of_taken href hc
      refine Or.inr ⟨set, hmem, ?_⟩
      by_cases hmesh : (g.flags t).isMesh
      · rw [if_pos hmesh] at heq
        exact Or.inr ⟨href, hmesh, c, rfl, heq⟩
      · rw [if_neg hmesh] at heq
        exact Or.inl heq
    | none =>
      cases hrem : (g.uidConnected t).updateRem (g.remYounger uid t) uid remTportId with
      | none =>
        left
        simp [updateCost, href, hc, hrem]
      | some set =>
        refine Or.inr ⟨set, (members_updateRem hrem).1, Or.inl ?_⟩
        simp [updateCost, href, hc, hrem]

end Update

/-! ## The costs the peers were told -/

/-- A transport with a link and no record queued has the cost last sent for it. -/
def Inv (g : CostState) : Prop :=
  ∀ t, (g.uidConnected t).members ≠ ∅ → ¬ g.Queued t →
    g.lastSent t = some (g.uidConnected t).cost

section Told

variable {g : CostState}

theorem mem_adjacencyRecs {s : SourceRoutes} {rec : AdjacencyRec} {last : Option ℕ}
    {list : List AdjChange} (h : rec ∈ s.adjacencyRecs last list) :
    ∃ p ∈ list, rec.tportid = some p.tportid ∧
      rec.cost = (s.transportTab p.tportid).uidConnected.cost := by
  induction list generalizing last with
  | nil => simp [SourceRoutes.adjacencyRecs] at h
  | cons p list ih =>
    rcases List.mem_cons.mp h with rfl | h
    · exact ⟨p, List.mem_cons_self, rfl, rfl⟩
    · obtain ⟨q, hq, hrec⟩ := ih h
      exact ⟨q, List.mem_cons_of_mem _ hq, hrec⟩

theorem exists_mem_adjacencyRecs (s : SourceRoutes) (last : Option ℕ)
    {list : List AdjChange} {p : AdjChange} (hp : p ∈ list) :
    ∃ rec ∈ s.adjacencyRecs last list, rec.tportid = some p.tportid := by
  induction list generalizing last with
  | nil => simp at hp
  | cons q list ih =>
    rcases List.mem_cons.mp hp with rfl | hp
    · exact ⟨_, List.mem_cons_self, rfl⟩
    · obtain ⟨rec, hrec, ht⟩ := ih (some q.tportid) hp
      exact ⟨rec, List.mem_cons_of_mem _ hrec, ht⟩

/-- The message has the cost of every transport that is queued, and leaves what
was sent for the others. -/
theorem lastSent_send (g : CostState) (t : ℕ) :
    (g.step .sendAdjacencyChange).lastSent t =
      if g.Queued t then some (g.uidConnected t).cost else g.lastSent t := by
  let recs := g.routes.adjacencyRecs none g.routes.adjacencyChange
  have hsent : (g.step .sendAdjacencyChange).sent = g.sent ++ recs := rfl
  rw [lastSent, hsent, List.filter_append]
  split
  · next hq =>
      obtain ⟨p, hp, rfl⟩ := hq
      obtain ⟨rec, hrec, ht⟩ := exists_mem_adjacencyRecs g.routes none hp
      have hne : (recs.filter fun rec => rec.tportid = some p.tportid) ≠ [] :=
        List.ne_nil_of_mem (List.mem_filter.mpr ⟨hrec, by simpa using ht⟩)
      obtain ⟨r, hr⟩ := List.getLast?_isSome.mpr hne |> Option.isSome_iff_exists.mp
      rw [List.getLast?_append_of_ne_nil _ hne, hr]
      obtain ⟨hmem, htr⟩ := List.mem_filter.mp (List.mem_of_getLast? hr)
      obtain ⟨q, -, hq, hcost⟩ := mem_adjacencyRecs hmem
      have heq : q.tportid = p.tportid := by simpa [hq] using htr
      rw [Option.map_some, hcost, heq]
      rfl
  · next hq =>
      have hnil : (recs.filter fun rec => rec.tportid = some t) = [] := by
        refine List.filter_eq_nil_iff.mpr fun rec hrec => ?_
        obtain ⟨p, hp, ht, -⟩ := mem_adjacencyRecs hrec
        rw [ht]
        intro heq
        exact hq ⟨p, hp, by simpa using heq⟩
      rw [hnil, List.append_nil]
      rfl

/-- Sending what is queued tells the costs if and only if the invariant holds. -/
theorem costsTold_send_iff (g : CostState) :
    (g.step .sendAdjacencyChange).CostsTold ↔ g.Inv := by
  have hset : (g.step .sendAdjacencyChange).uidConnected = g.uidConnected := rfl
  refine forall_congr' fun t => ?_
  rw [lastSent_send, hset]
  by_cases hq : g.Queued t
  · simp [hq]
  · simp [hq]

/-- The routes: a set that changes has a record queued. -/
theorem inv_route (hi : g.Inv) (e : SourceRoutes.RouteEvent) : (g.step (.route e)).Inv := by
  intro t hne hq
  have hflips := SourceRoutes.flips_step g.routes e
  have hqueue : ∀ u, changesOf u t (g.routes.step e).adjacencyChange = [] := by
    intro u
    refine List.eq_nil_iff_forall_not_mem.mpr fun b hb => ?_
    obtain ⟨q, hmem, -, ht, -⟩ := mem_changesOf.mp hb
    exact hq ⟨q, hmem, ht⟩
  -- no link of this transport has changed: a change would be in the queue
  have hsame : ∀ u, (g.routes.step e).linkFlag u t = g.routes.linkFlag u t := by
    intro u
    rcases hflips u t with h | h
    · exact h
    · have hnil : (Coalesce.toggle (g.routes.linkFlag u t)).queue = [] := by
        rw [← h]
        exact hqueue u
      simp only [Coalesce.toggle, Coalesce.enqueue] at hnil
      split at hnil
      · next hin =>
          rw [hnil] at hin
          simp at hin
      · simp at hnil
  have hmem : ((g.step (.route e)).uidConnected t).members = (g.uidConnected t).members := by
    ext u
    have h := congrArg Coalesce.Flag.on (hsame u)
    show u ∈ (g.routes.step e).uidConnected t ↔ u ∈ g.routes.uidConnected t
    simpa [SourceRoutes.linkFlag] using h
  have hold : ¬ g.Queued t := by
    rintro ⟨p, hp, ht⟩
    have h := congrArg Coalesce.Flag.queue (hsame p.uid)
    have hnil : changesOf p.uid t g.routes.adjacencyChange = [] := h.symm.trans (hqueue p.uid)
    have hin : p.add ∈ changesOf p.uid t g.routes.adjacencyChange :=
      mem_changesOf.mpr ⟨p, hp, rfl, ht, rfl⟩
    rw [hnil] at hin
    simp at hin
  have hcost : ((g.step (.route e)).uidConnected t).cost = (g.uidConnected t).cost :=
    SourceRoutes.sameCosts_step g.routes e t
  rw [hcost]
  exact hi t (by rwa [hmem] at hne) hold

theorem inv_updateCost (hi : g.Inv) {uid t : ℕ} {cost : Option AdjCost} {remTportId : ℕ}
    (hok : g.SiblingsTold (.updateCost uid t cost remTportId)) :
    (g.step (.updateCost uid t cost remTportId)).Inv := by
  show (g.updateCost uid t cost remTportId).1.Inv
  rcases updateCost_cases g uid t cost remTportId with heq | ⟨set, hmem, heq⟩
  · rw [heq]
    exact hi
  have hput : ∀ id, id ≠ t →
      ((g.putSet t set).appendAdjacency t uid).uidConnected id = g.uidConnected id := by
    intro id hid
    exact (uidConnected_putSet g t set id).trans (if_neg hid)
  rcases heq with heq | ⟨href, hmesh, c, hc, heq⟩
  · rw [heq]
    intro id hne hq
    have hq' : ¬ (g.Queued id ∨ id = t) :=
      fun h => hq ((queued_appendAdjacency (g.putSet t set) t uid id).mpr h)
    rw [not_or] at hq'
    rw [hput id hq'.2] at hne ⊢
    exact hi id hne hq'.1
  · rw [heq]
    intro id hne hq
    have hq' : ¬ (g.Queued id ∨ id = t) :=
      fun h => hq ((queued_appendAdjacency (g.putSet t set) t uid id).mpr h)
    rw [not_or] at hq'
    have hsib : ((g.putSet t set).appendAdjacency t uid).sibling t id = g.sibling t id :=
      sibling_putSet g t set id
    rw [uidConnected_copyCost, hsib, hput id hq'.2] at hne ⊢
    split at hne
    · next hs =>
        rw [if_pos hs]
        have hlt : id < g.routes.tportCount := by
          simp only [sibling, Bool.decide_and, Bool.and_eq_true, decide_eq_true_eq] at hs
          exact hs.1
        rcases hok href hmesh c hc id hlt hs with h | h | h
        · exact absurd h hne
        · rw [← h]
          exact hi id hne hq'.1
        · exact absurd h hq'.1
    · next hs =>
        rw [if_neg hs]
        exact hi id hne hq'.1

theorem inv_step (hi : g.Inv) (e : Event) (hok : g.SiblingsTold e) : (g.step e).Inv := by
  cases e with
  | route e => exact inv_route hi e
  | updateCost uid t cost remTportId => exact inv_updateCost hi hok
  | setFlags t f => exact hi
  | setAuthenticated uid b => exact hi
  | sendAdjacencyChange =>
    intro t hne _
    exact (costsTold_send_iff g).mpr hi t hne

/-- A copy of the cost that nothing is queued for is a cost the peers are not
told. -/
theorem siblingsTold_of_inv (hi : g.Inv) (e : Event) (h : (g.step e).Inv) :
    g.SiblingsTold e := by
  cases e with
  | updateCost uid t cost remTportId =>
    intro href hmesh c hc id hlt hs
    by_contra hcon
    simp only [not_or] at hcon
    obtain ⟨hne, hcost, hq⟩ := hcon
    obtain ⟨set, hmem, heq⟩ := updateCost_of_taken href hc
    rw [if_pos hmesh] at heq
    have hid : id ≠ t := by
      simp only [sibling, Bool.decide_and, Bool.and_eq_true, decide_eq_true_eq] at hs
      exact hs.2.1
    have hstep : (g.updateCost uid t cost remTportId).1.uidConnected id =
        { g.uidConnected id with cost := c } := by
      rw [heq, uidConnected_copyCost]
      have hsib : ((g.putSet t set).appendAdjacency t uid).sibling t id = true :=
        (sibling_putSet g t set id).trans hs
      have hput : ((g.putSet t set).appendAdjacency t uid).uidConnected id =
          g.uidConnected id := (uidConnected_putSet g t set id).trans (if_neg hid)
      rw [if_pos hsib, hput]
    have hq' : ¬ (g.updateCost uid t cost remTportId).1.Queued id := by
      rw [heq]
      intro h'
      rcases (queued_appendAdjacency (g.putSet t set) t uid id).mp h' with h' | h'
      · exact hq h'
      · exact hid h'
    have hsent : (g.updateCost uid t cost remTportId).1.sent = g.sent := by
      rw [heq]
      rfl
    have hlast := h id (by
      show ((g.updateCost uid t cost remTportId).1.uidConnected id).members ≠ ∅
      rw [hstep]
      exact hne) hq'
    have hnew : g.lastSent id = some c := by
      have hlast : (g.updateCost uid t cost remTportId).1.lastSent id =
        some ((g.updateCost uid t cost remTportId).1.uidConnected id).cost := hlast
      rwa [lastSent, hsent, hstep] at hlast
    exact hcost (Option.some.inj ((hi id hne hq).symm.trans hnew))
  | _ => trivial

end Told

/-- A peer that applies the records in order holds the cost in the last one. -/
theorem cost_foldl_apply (find : UidTable) (me : ℕ) (sent : List AdjacencyRec)
    (tab : AdjacencyTab) {t : ℕ} {c : AdjCost}
    (h : ((sent.filter fun rec => rec.tportid = some t).getLast?).map AdjacencyRec.cost =
      some c) :
    ((sent.foldl (AdjacencyTab.apply find me) tab).ptr t).map AdjacencySpace.cost = some c := by
  induction sent using List.reverseRecOn with
  | nil => simp at h
  | append_singleton sent rec ih =>
    rw [List.foldl_append, List.foldl_cons, List.foldl_nil]
    by_cases ht : rec.tportid = some t
    · have hcost : rec.cost = c := by simpa [ht] using h
      rw [AdjacencyTab.apply_of_tportid _ ht, AdjacencyTab.ptr_put_self]
      cases rec.memberOp find me with
      | skip => exact congrArg some hcost
      | add b rem => cases rem <;> exact congrArg some hcost
      | remove b => exact congrArg some hcost
    · have hrest := ih (by simpa [ht] using h)
      cases hid : rec.tportid with
      | none => rwa [AdjacencyTab.apply_of_no_tportid _ hid]
      | some t' =>
        have hne : t ≠ t' := fun heq => ht (hid.trans (congrArg some heq.symm))
        rwa [AdjacencyTab.apply_of_tportid _ hid, AdjacencyTab.ptr_put_ne _ hne]

/-- Every peer that applied all the records has the costs of the transports with links. -/
def PeersHold (g : CostState) : Prop :=
  ∀ (find : UidTable) (me : ℕ) (tab : AdjacencyTab) (t : ℕ), (g.uidConnected t).members ≠ ∅ →
    ((g.sent.foldl (AdjacencyTab.apply find me) tab).ptr t).map AdjacencySpace.cost =
      some (g.uidConnected t).cost

theorem CostsTold.peersHold {g : CostState} (h : g.CostsTold) : g.PeersHold := by
  intro find me tab t hne
  exact cost_foldl_apply find me g.sent tab (h t hne)

/-- **The peers are told the costs and have them**, by a message sent after any part of a run of
messages, pushes and pops, if and only if no message whose cost is taken on a
transport of a mesh finds another transport of it with a link, at another cost and
with no record queued. -/
theorem costsTold_iff_siblingsTold (routes : SourceRoutes) (flags : ℕ → TportFlags)
    (authenticated : ℕ → Bool) (es : List Event) :
    (∀ k, (((es.take k).foldl step (start routes flags authenticated)).step
          .sendAdjacencyChange).CostsTold ∧
        (((es.take k).foldl step (start routes flags authenticated)).step
          .sendAdjacencyChange).PeersHold) ↔
      Run.AllOk step SiblingsTold (start routes flags authenticated) es := by
  have hstart : (start routes flags authenticated).Inv := fun t hne _ => absurd rfl hne
  have htold : ∀ g : CostState, g.CostsTold ∧ g.PeersHold ↔ g.CostsTold := fun g =>
    and_iff_left_of_imp CostsTold.peersHold
  simp only [htold]
  refine (Run.allOk_iff_good (fun (g : CostState) (hi : g.Inv) => (costsTold_send_iff g).mpr hi)
    (fun _ e hi hok => inv_step hi e hok) (fun g e hi hgood => ?_) hstart es).symm
  exact siblingsTold_of_inv hi e ((costsTold_send_iff (g.step e)).mp hgood)

/-- A node with two transports of one mesh, each with its socket and the route of a
peer. -/
def meshPair : CostState :=
  start
    { sock := fun fd => if fd = 7 then some ⟨7, 1⟩ else if fd = 8 then some ⟨8, 1⟩ else none
      nonce := 1
      startTime := 20
      bridgeTab := fun uid =>
        if uid = 1 then some ⟨2, 10⟩ else if uid = 2 then some ⟨3, 11⟩ else none
      route := fun _ t => ⟨if t = 0 then ⟨7, 1⟩ else ⟨8, 1⟩, true, true, false, 0⟩
      tportCount := 2
      transportTab := fun _ => ⟨text "mesh", text "mesh", some 0, none, AdjacencySpace.new, ∅, 0⟩
      routeList := fun _ => ⟨[], 0⟩
      uidInMesh := fun _ => .empty
      meshCsum := fun _ => 0
      uidInDevice := fun _ => .empty
      adjacencyChange := []
      linkStateSeqno := 0 }
    (fun _ => ⟨false, true, false, false⟩) (fun _ => true)

/-- Both peers are linked and told of; then the first one's transport takes a cost of
500, which the second transport gets too. The message has the cost of the first
transport only. -/
theorem copied_cost_not_told :
    ¬ ∀ (routes : SourceRoutes) (flags : ℕ → TportFlags) (authenticated : ℕ → Bool)
      (es : List Event), ((es.foldl step (start routes flags authenticated)).step
        .sendAdjacencyChange).CostsTold := by
  intro h
  have htold := h meshPair.routes meshPair.flags meshPair.authenticated
    [.route (.pushUserRoute 1 0), .route (.pushUserRoute 2 1), .sendAdjacencyChange,
      .updateCost 1 0 (some (AdjCost.const 500)) 3] 1 (by decide)
  exact absurd htold (by decide)

end CostState

end Raims
