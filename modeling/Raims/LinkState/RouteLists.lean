import Raims.LinkState.SourceRoute
import Raims.Lib.Run
import Mathlib.Data.Finset.Fold
import Mathlib.Algebra.Ring.Nat

/-!
# What is counted of the routes (`route_list`, `uid_in_mesh`, `mesh_csum`)

Each socket has a list of the routes that use it. A route in a list that has no hops
is a link, and is counted three times: in `sys_route_refs` of its list, in
`uid_connected` of its transport and in `uid_in_mesh` of the mesh, if there is one.
The counts are undone when the route leaves the list, if it has no hops then.
-/

namespace Raims

/-! ## Changes of a route -/

/-- The routes with their `UCAST_URL_STATE` or `UCAST_URL_SRC_STATE`, and which
transports are multicast. -/
structure UserRoutes extends SourceRoutes where
  url : ℕ → ℕ → Bool
  isMcast : ℕ → Bool

namespace SourceRoutes

variable (s : SourceRoutes)

/-- The loop of `close_source_route` over the list of socket `fd`. -/
def closeLoop (fd : ℕ) : ℕ → SourceRoutes → SourceRoutes
  | 0, s => s
  | fuel + 1, s =>
    match (s.routeList fd).list with
    | [] => s
    | p :: _ =>
      closeLoop fd fuel
        (if (s.route p.1 p.2).inRouteList then s.popUserRoute p.1 p.2
        else s.modifyList fd fun l => { l with list := l.list.erase p })

/-- `close_source_route`, less the blooms of the peers. -/
def closeSourceRoute (fd : ℕ) : SourceRoutes := closeLoop fd (s.routeList fd).list.length s

/-- `COST_MAXIMUM` and the loop of `closest_peer_route`; `cost` is `calc_cost` to the
peer at that time. -/
def closestPeerRoute (t uid : ℕ) (cost : ℕ → ℕ) : Option ℕ :=
  let maximum := 2 ^ 32 - 1
  let min := (BitSpace.toList (s.transportTab t).uidConnected.members).foldl
    (fun min u => if u ≠ uid ∧ cost u < min.2 then (u, cost u) else min) (0, maximum)
  if min.2 = maximum then none else some min.1

/-- The socket of a route, and its hops. -/
def reroute (uid t : ℕ) (mcast : PeerId) (hops : ℕ) : SourceRoutes :=
  s.modifyRoute uid t fun r => { r.connected hops with mcast := mcast }

end SourceRoutes

namespace UserRoutes

variable (s : UserRoutes)

/-- A route that is popped loses its url (`invalidate`). -/
def withRoutes (r : SourceRoutes) : UserRoutes :=
  { s with
    toSourceRoutes := r
    url := fun uid t =>
      s.url uid t && !((s.route uid t).inRouteList && !(r.route uid t).isValid) }

def setUrl (uid t : ℕ) : UserRoutes :=
  { s with url := Function.update s.url uid (Function.update (s.url uid) t true) }

/-- `add_user_route`. -/
def addUserRoute (uid t : ℕ) (mcast : PeerId) (hops : ℕ) (url auth : Bool) : UserRoutes :=
  let r := s.route uid t
  let s := if r.isValid ∧ r.inRouteList then s.withRoutes (s.popUserRoute uid t) else s
  let s := s.withRoutes (s.reroute uid t mcast hops)
  let s := if url then s.setUrl uid t else s
  if auth then s.withRoutes (s.pushUserRoute uid t) else s

/-- `forward_to` up to `find_inbox_peer`. -/
def findInboxPeer (uid t : ℕ) (cost : ℕ → ℕ) : UserRoutes :=
  if s.isMcast t ∧ ¬ s.url uid t then
    match s.closestPeerRoute t uid cost with
    | none => s
    | some m =>
      let peer := s.route m t
      if peer.isValid ∧ s.url m t then
        let s := (s.withRoutes (s.reroute uid t peer.mcast 1)).setUrl uid t
        s.withRoutes (s.pushUserRoute uid t)
      else s
  else s

/-- The part of `find_adjacent_routes` for the route on the path to a peer: `src` is
the peer that the path goes through. -/
def findAdjacentRoute (uid t src : ℕ) : UserRoutes :=
  if ¬ (s.route uid t).inRouteList ∧ uid ∉ (s.transportTab t).uidConnected.members then
    let peer := s.route src t
    if peer.isValid then
      let s' := s.withRoutes (s.reroute uid t peer.mcast 1)
      let s' := if s.url src t then s'.setUrl uid t else s'
      s'.withRoutes (s'.pushUserRoute uid t)
    else s
  else s

/-! ## Runs -/

inductive RouteAct where
  | addUserRoute (uid t : ℕ) (mcast : PeerId) (hops : ℕ) (url auth : Bool)
  | findInboxPeer (uid t : ℕ) (cost : ℕ → ℕ)
  | findAdjacentRoute (uid t src : ℕ)
  | setUcastUrl (uid t : ℕ)
  | pushUserRoute (uid t : ℕ)
  | setConnectedUserRoute (uid t : ℕ)
  | popUserRoute (uid t : ℕ)
  | pushSourceRoute (uid : ℕ)
  | popSourceRoute (uid : ℕ)
  | closeSourceRoute (fd : ℕ)
  | setSock (fd : ℕ) (pid : Option PeerId)

/-- The transport that an event is about is in the table. -/
def RouteAct.inTable (count : ℕ) : RouteAct → Bool
  | .addUserRoute _ t _ _ _ _ | .findInboxPeer _ t _ | .findAdjacentRoute _ t _
  | .setUcastUrl _ t | .pushUserRoute _ t | .setConnectedUserRoute _ t
  | .popUserRoute _ t => t < count
  | .pushSourceRoute _ | .popSourceRoute _ | .closeSourceRoute _ | .setSock _ _ => true

def act : RouteAct → UserRoutes
  | .addUserRoute uid t mcast hops url auth => s.addUserRoute uid t mcast hops url auth
  | .findInboxPeer uid t cost => s.findInboxPeer uid t cost
  | .findAdjacentRoute uid t src => s.findAdjacentRoute uid t src
  | .setUcastUrl uid t => s.setUrl uid t
  | .pushUserRoute uid t => s.withRoutes (s.pushUserRoute uid t)
  | .setConnectedUserRoute uid t => s.withRoutes (s.setConnectedUserRoute uid t)
  | .popUserRoute uid t => s.withRoutes (s.popUserRoute uid t)
  | .pushSourceRoute uid => s.withRoutes (s.pushSourceRoute uid)
  | .popSourceRoute uid => s.withRoutes (s.popSourceRoute uid)
  | .closeSourceRoute fd => s.withRoutes (s.closeSourceRoute fd)
  | .setSock fd pid => s.withRoutes { s.toSourceRoutes with sock := Function.update s.sock fd pid }

def step (s : UserRoutes) (e : RouteAct) : UserRoutes :=
  if e.inTable s.tportCount then s.act e else s

end UserRoutes

end Raims
