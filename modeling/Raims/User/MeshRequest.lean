import Mathlib.Data.List.Perm.Basic
import Mathlib.Data.Nat.Notation
import Raims.LinkState.AdjacencyChange

/-!
# The filter of a mesh request (`send_mesh_request`)

A node whose checksum of a mesh differs from that of a peer asks it for the urls of the
mesh, and sends a filter with the hashes of the urls it has. The routes that these are
taken from are enumerated twice, to count them and to store their hashes; the second loop
advances its index once where it stores and once after.
-/

namespace Raims

/-- What is read of a `UserRoute`: `meshUrlState` is `MESH_URL_STATE`, and `meshId` the
`mesh_id` of its transport, a pointer. -/
structure MeshRoute where
  valid : Bool
  meshUrlState : Bool
  meshId : Option ℕ
  urlHash : UInt32
  meshUrl : String

/-- What is read of a `UserBridge`: `user_route_ptr` by transport. -/
structure MeshBridge where
  nonce : Nonce
  route : ℕ → Option MeshRoute

/-- What is read of a `TransportRoute`; `uidInMesh` in the order of `first` and `next`. -/
structure MeshTransport where
  tportId : ℕ
  tport : String
  meshId : Option ℕ
  uidInMesh : List ℕ
  meshCsum : Nonce

structure MeshDB where
  nonce : Nonce
  bridgeTab : ℕ → MeshBridge
  tportCount : ℕ

/-- The fields of the message. An entry of the filter is none where the buffer is sent as it
was allocated, or past its end. -/
structure MeshReq where
  seqno : ℕ
  meshUrl : String
  tport : String
  tportid : ℕ
  meshFilter : List (Option UInt32)

/-- The filter while it is filled, and the indexes written. -/
structure FilterFill where
  filter : ℕ → Option UInt32
  urlCount : ℕ
  written : List ℕ

/-- What a call leaves behind: `rte.mesh_csum`, whether the peer is put in `mesh_queue`, how
many entries are allocated, which are written, and the message. -/
structure MeshSend where
  meshCsum : Nonce
  queued : Bool
  allocated : ℕ
  written : List ℕ
  msg : Option MeshReq

namespace MeshDB

section Code

variable (db : MeshDB) (rte : MeshTransport)

/-- The route on a transport, unless one of the loops' conditions skips it. -/
def takes (uid tportId : ℕ) : Option MeshRoute :=
  if tportId = rte.tportId then none
  else
    ((db.bridgeTab uid).route tportId).filter fun u =>
      u.valid && (u.meshUrlState && u.meshId == rte.meshId)

/-- The two nested loops. -/
def eachRoute {σ : Type*} (f : σ → MeshRoute → σ) (s : σ) : σ :=
  rte.uidInMesh.foldl
    (fun s uid =>
      (List.range db.tportCount).foldl (fun s tportId => (db.takes rte uid tportId).elim s (f s)) s)
    s

def csum : Nonce := rte.uidInMesh.foldl (fun c uid => c ^^^ (db.bridgeTab uid).nonce) db.nonce

/-- `url_count` after the first loop. -/
def countUrls : ℕ := db.eachRoute rte (fun n _ => n + 1) 0

/-- The statements `filter[ url_count++ ] = u_ptr->url_hash; url_count++;`. -/
def store (s : FilterFill) (u : MeshRoute) : FilterFill where
  filter := Function.update s.filter s.urlCount (some u.urlHash)
  urlCount := s.urlCount + 1 + 1
  written := s.written ++ [s.urlCount]

/-- The second loop, that runs only when routes were counted. -/
def fillFilter : FilterFill :=
  if 0 < db.countUrls rte then db.eachRoute rte store ⟨fun _ => none, 0, []⟩
  else ⟨fun _ => none, 0, []⟩

/-- `send_mesh_request` to a peer with the route `userRoute`; `throttled` is what
`throttle_mesh` says and `seqno` what `next_send` gives. -/
def sendMeshRequest (userRoute : MeshRoute) (peerCsum : Nonce) (throttled : Bool) (seqno : ℕ) :
    MeshSend :=
  if userRoute.meshUrlState then
    let csum := db.csum rte
    let meshCsum :=
      if csum = peerCsum ∧ rte.meshCsum ^^^ db.nonce ≠ csum then csum ^^^ db.nonce
      else rte.meshCsum
    if throttled then ⟨meshCsum, false, 0, [], none⟩
    else
      let fill := db.fillFilter rte
      { meshCsum := meshCsum
        queued := true
        allocated := db.countUrls rte
        written := fill.written
        msg := some
          { seqno := seqno
            meshUrl := userRoute.meshUrl
            tport := rte.tport
            tportid := rte.tportId
            meshFilter := (List.range fill.urlCount).map fill.filter } }
  else ⟨rte.meshCsum, false, 0, [], none⟩

end Code

/-- The valid mesh routes of the users of the mesh, over all other transports. -/
def counted (db : MeshDB) (rte : MeshTransport) : List MeshRoute :=
  rte.uidInMesh.flatMap fun uid => (List.range db.tportCount).filterMap (db.takes rte uid)

/-- The filter that is sent has the hashes of the routes, each once and nothing else, and is
written where it is allocated. -/
def FilterExact (routes : List MeshRoute) (s : MeshSend) : Prop :=
  (∀ m ∈ s.msg, m.meshFilter.Perm (routes.map fun u => some u.urlHash)) ∧
    ∀ i ∈ s.written, i < s.allocated

variable {db : MeshDB} {rte : MeshTransport} {userRoute : MeshRoute} {peerCsum : Nonce}
  {throttled : Bool} {seqno : ℕ}

/-- Both loops go over the counted routes. -/
theorem eachRoute_eq_foldl {σ : Type*} (f : σ → MeshRoute → σ) (s : σ) :
    db.eachRoute rte f s = (db.counted rte).foldl f s := by
  have hinner : ∀ (uid : ℕ) (l : List ℕ) (s : σ),
      l.foldl (fun s tportId => (db.takes rte uid tportId).elim s (f s)) s =
        (l.filterMap (db.takes rte uid)).foldl f s := by
    intro uid l
    induction l with
    | nil => intro s; rfl
    | cons t l ih =>
      intro s
      rw [List.foldl_cons, ih]
      cases htake : db.takes rte uid t with
      | none => rw [List.filterMap_cons_none htake, Option.elim_none]
      | some u => rw [List.filterMap_cons_some htake, Option.elim_some, List.foldl_cons]
  rw [eachRoute, counted]
  induction rte.uidInMesh generalizing s with
  | nil => rfl
  | cons uid uids ih => rw [List.foldl_cons, ih, hinner, List.flatMap_cons, List.foldl_append]

theorem countUrls_eq_length : db.countUrls rte = (db.counted rte).length := by
  have hcount : ∀ (l : List MeshRoute) (n : ℕ),
      l.foldl (fun n _ => n + 1) n = n + l.length := by
    intro l
    induction l with
    | nil => intro n; rfl
    | cons u l ih =>
      intro n
      rw [List.foldl_cons, ih, List.length_cons]
      omega
  rw [countUrls, eachRoute_eq_foldl, hcount, Nat.zero_add]

theorem foldl_store (l : List MeshRoute) (s : FilterFill) :
    (l.foldl store s).urlCount = s.urlCount + 2 * l.length ∧
      (l.foldl store s).written =
        s.written ++ (List.range l.length).map fun k => s.urlCount + 2 * k := by
  induction l generalizing s with
  | nil => exact ⟨rfl, (List.append_nil _).symm⟩
  | cons u l ih =>
    obtain ⟨hcount, hwritten⟩ := ih (store s u)
    constructor
    · rw [List.foldl_cons, hcount, List.length_cons]
      show s.urlCount + 1 + 1 + 2 * l.length = _
      omega
    · rw [List.foldl_cons, hwritten, List.length_cons, List.range_succ_eq_map, List.map_cons,
        List.map_map]
      show (s.written ++ [s.urlCount]) ++ _ = _
      rw [List.append_assoc]
      refine congrArg (s.written ++ ·) (congrArg (s.urlCount :: ·) ?_)
      refine List.map_congr_left fun k _ => ?_
      show s.urlCount + 1 + 1 + 2 * k = s.urlCount + 2 * (k + 1)
      omega

/-- The second loop takes two entries for each route, and writes the first of them. -/
theorem fillFilter_spec :
    (db.fillFilter rte).urlCount = 2 * (db.counted rte).length ∧
      (db.fillFilter rte).written = (List.range (db.counted rte).length).map fun k => 2 * k := by
  rw [fillFilter, countUrls_eq_length, eachRoute_eq_foldl]
  by_cases hpos : 0 < (db.counted rte).length
  · rw [if_pos hpos]
    obtain ⟨hcount, hwritten⟩ := foldl_store (db.counted rte) ⟨fun _ => none, 0, []⟩
    refine ⟨hcount.trans (Nat.zero_add _), hwritten.trans ?_⟩
    simp only [List.nil_append, Nat.zero_add]
  · have hzero : (db.counted rte).length = 0 := Nat.eq_zero_of_not_pos hpos
    rw [if_neg hpos, hzero]
    exact ⟨rfl, rfl⟩

/-- The writes stay in the buffer as long as there is one route at most. -/
theorem written_lt_iff :
    (∀ i ∈ (db.fillFilter rte).written, i < db.countUrls rte) ↔ (db.counted rte).length ≤ 1 := by
  rw [fillFilter_spec.2, countUrls_eq_length]
  constructor
  · intro h
    by_contra hlen
    have hlast := h (2 * ((db.counted rte).length - 1)) (List.mem_map.2
      ⟨_, List.mem_range.2 (by omega), rfl⟩)
    omega
  · rintro h i hi
    obtain ⟨k, hk, rfl⟩ := List.mem_map.1 hi
    rw [List.mem_range] at hk
    omega

/-- What is built when a request is sent. -/
theorem sendMeshRequest_of_send (db : MeshDB) (rte : MeshTransport) (peerCsum : Nonce)
    (seqno : ℕ) (hstate : userRoute.meshUrlState = true) (hthrottle : throttled = false) :
    (db.sendMeshRequest rte userRoute peerCsum throttled seqno).written =
        (db.fillFilter rte).written ∧
      (db.sendMeshRequest rte userRoute peerCsum throttled seqno).allocated = db.countUrls rte ∧
      (db.sendMeshRequest rte userRoute peerCsum throttled seqno).msg.map MeshReq.meshFilter =
        some ((List.range (db.fillFilter rte).urlCount).map (db.fillFilter rte).filter) := by
  subst hthrottle
  rw [sendMeshRequest, if_pos hstate]
  exact ⟨rfl, rfl, rfl⟩

theorem sendMeshRequest_of_not_send (db : MeshDB) (rte : MeshTransport) (peerCsum : Nonce)
    (seqno : ℕ) (h : userRoute.meshUrlState = false ∨ throttled = true) :
    (db.sendMeshRequest rte userRoute peerCsum throttled seqno).written = [] ∧
      (db.sendMeshRequest rte userRoute peerCsum throttled seqno).msg = none := by
  rw [sendMeshRequest]
  rcases h with hstate | rfl
  · rw [if_neg (by rw [hstate]; exact Bool.false_ne_true)]
    exact ⟨rfl, rfl⟩
  · split <;> exact ⟨rfl, rfl⟩

/-- The filter is exact when no request is sent, or no route is counted. -/
theorem sendMeshRequest_exact_iff (db : MeshDB) (rte : MeshTransport) (userRoute : MeshRoute)
    (peerCsum : Nonce) (throttled : Bool) (seqno : ℕ) :
    FilterExact (db.counted rte) (db.sendMeshRequest rte userRoute peerCsum throttled seqno) ↔
      userRoute.meshUrlState = false ∨ throttled = true ∨ db.counted rte = [] := by
  by_cases hsend : userRoute.meshUrlState = false ∨ throttled = true
  · obtain ⟨hwritten, hmsg⟩ := sendMeshRequest_of_not_send db rte peerCsum seqno hsend
    refine iff_of_true ⟨?_, ?_⟩ (by tauto)
    · rw [hmsg]
      exact fun m hm => absurd hm (by simp)
    · rw [hwritten]
      exact List.forall_mem_nil _
  · rw [not_or, Bool.not_eq_false, Bool.not_eq_true] at hsend
    obtain ⟨hwritten, halloc, hmsg⟩ := sendMeshRequest_of_send db rte peerCsum seqno hsend.1 hsend.2
    obtain ⟨m, hm, hfilter⟩ := Option.map_eq_some_iff.1 hmsg
    have hlen : m.meshFilter.length = 2 * (db.counted rte).length := by
      rw [hfilter, List.length_map, List.length_range, fillFilter_spec.1]
    constructor
    · rintro ⟨hperm, -⟩
      have heq := (hperm m hm).length_eq
      rw [hlen, List.length_map] at heq
      exact .inr (.inr (List.length_eq_zero_iff.1 (by omega)))
    · rintro (hstate | hthrottle | hnil)
      · exact Bool.noConfusion (hsend.1.symm.trans hstate)
      · exact Bool.noConfusion (hsend.2.symm.trans hthrottle)
      · constructor
        · intro m' hm'
          obtain rfl := Option.some.inj (hm.symm.trans hm')
          rw [hnil, List.length_nil, Nat.mul_zero, List.length_eq_zero_iff] at hlen
          rw [hlen, hnil]
          exact .nil
        · rw [hwritten, halloc, written_lt_iff, hnil]
          exact Nat.zero_le 1

def meshPeer (hash : UInt32) : MeshBridge where
  nonce := 0
  route t := if t = 1 then some ⟨true, true, some 7, hash, "mesh"⟩ else none

/-- Two users of a mesh with a route each on its second transport. -/
def twoMeshUsers : MeshDB where
  nonce := 1
  bridgeTab uid := meshPeer (UInt32.ofNat uid)
  tportCount := 2

def meshTport : MeshTransport := ⟨0, "mesh", some 7, [1, 2], 0⟩

/-- The hash of the second user is stored past the two entries, and four are sent. -/
theorem second_hash_is_outside :
    ¬ FilterExact (twoMeshUsers.counted meshTport)
      (twoMeshUsers.sendMeshRequest meshTport ⟨true, true, some 7, 9, "url"⟩ 0 false 1) := by
  rintro ⟨-, hwritten⟩
  exact absurd (hwritten 2 (by decide)) (by decide)

end MeshDB

end Raims
