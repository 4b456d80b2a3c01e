import Raims.LinkState.UserDB
import Raims.Msg.MsgEst

/-!
# The link state in a message (`adjacency_size`, `adjacency_submsg`)

The adjacency sets of a user are sent as records, one for each member. The names of
the transport stand in the first record of a set and its remote end in the last. The
size is estimated by a loop of its own, with the same conditions.
-/

namespace Raims

open Bytes

/-! ## §1 Values -/

/-- The bytes of a bridge id. -/
def nonceBytes (nonce : Nonce) : Octets 16 := ⟨be 16 nonce.toNat, length_be 16 _⟩

/-! ## §2 The records -/

/-- The users in the order of the bits. -/
def AdjacencySpace.uids (set : AdjacencySpace) : List ℕ :=
  (List.range (set.members.sup id + 1)).filter (· ∈ set.members)

theorem AdjacencySpace.mem_uids {set : AdjacencySpace} {uid : ℕ} :
    uid ∈ set.uids ↔ uid ∈ set.members := by
  simp only [uids, List.mem_filter, List.mem_range, decide_eq_true_eq, and_iff_right_iff_imp]
  intro h
  exact Nat.lt_succ_of_le (Finset.le_sup (f := id) h)

/-- What `adjacency_submsg` reads: the peers and their sets, the node's own id and
user, and the sets of its transports (`uid_connected`). -/
structure LinkStateDB where
  db : UserDB
  nonce : Nonce
  user : List UInt8
  /-- `peer.user` -/
  peerUser : ℕ → List UInt8
  /-- `transport_tab.count` -/
  tportCount : ℕ
  uidConnected : ℕ → AdjacencySpace

namespace LinkStateDB

variable (l : LinkStateDB)

/-- `peer_dist.adjacency_count`, which has 32 bits. `sync` is null for the node
itself. -/
def adjacencyCount (sync : Option ℕ) : ℕ :=
  match sync with
  | none => l.tportCount % 2 ^ 32
  | some uid =>
    match l.db.bridgeTab uid with
    | none => 0
    | some n => if n.authenticated then n.adjacency.count % 2 ^ 32 else 0

/-- `peer_dist.adjacency_set`. -/
def adjacencySet (sync : Option ℕ) (i : ℕ) : Option AdjacencySpace :=
  match sync with
  | none => some (l.uidConnected i)
  | some uid =>
    match l.db.bridgeTab uid with
    | none => none
    | some n => if n.authenticated then n.adjacency.ptr i else none

/-- The bridge id and the name of a user: those of the node are not in
`bridge_tab`. -/
def bridgeOf (uid : ℕ) : Option (Nonce × List UInt8) :=
  if uid = 0 then some (l.nonce, l.user)
  else (l.db.bridgeTab uid).map fun n => (n.nonce, l.peerUser uid)

/-- The members of a set that have a bridge; the others are skipped. -/
def known (set : AdjacencySpace) : List (ℕ × Nonce × List UInt8) :=
  set.uids.filterMap fun uid => (l.bridgeOf uid).map (Prod.mk uid)

/-- The fields of one member. -/
def memberFields (i : ℕ) (set : AdjacencySpace) (changed : Bool) (p : ℕ × Nonce × List UInt8) :
    List Fld :=
  [.i MsgFid.tportid.code (UInt32.ofNat i), .b MsgFid.adjCost.code set.cost.str] ++
    (if changed then
      [.b MsgFid.tport.code set.tport, .b MsgFid.tportType.code set.tportType]
    else []) ++
    [.b MsgFid.user.code p.2.2, .n MsgFid.bridge.code (nonceBytes p.2.1)]

/-- The loop over the members. `last` is that of `tport_changed`. -/
def memberLoop (i : ℕ) (set : AdjacencySpace) :
    ℕ → List (ℕ × Nonce × List UInt8) → ℕ × List Fld
  | last, [] => (last, [])
  | last, p :: ps =>
    let r := memberLoop i set i ps
    (r.1, memberFields i set (last ≠ i) p ++ r.2)

/-- `last_uid` after the loop. -/
def lastUid (ps : List (ℕ × Nonce × List UInt8)) : ℕ := (ps.getLast?.map Prod.fst).getD 0

/-- The fields of the remote end; nothing is sent when its user has no bridge. -/
def remFields (set : AdjacencySpace) (lastUid : ℕ) : List Fld :=
  if set.remTportId = 0 then [.i MsgFid.remTportid.code 0]
  else if lastUid ≠ set.remUid then
    match l.bridgeOf set.remUid with
    | none => []
    | some r =>
      [.n MsgFid.remBridge.code (nonceBytes r.1),
        .i MsgFid.remTportid.code (UInt32.ofNat set.remTportId)]
  else [.i MsgFid.remTportid.code (UInt32.ofNat set.remTportId)]

/-- The records of one set. -/
def setFields (last i : ℕ) (set : AdjacencySpace) : ℕ × List Fld :=
  let ps := l.known set
  let r := memberLoop i set last ps
  (r.1, r.2 ++ if ps = [] then [] else l.remFields set (lastUid ps))

/-- The loop over the sets. -/
def setLoop (sync : Option ℕ) : ℕ → List ℕ → List Fld
  | _, [] => []
  | last, i :: is =>
    match l.adjacencySet sync i with
    | none => setLoop sync last is
    | some set =>
      let r := l.setFields last i set
      r.2 ++ setLoop sync r.1 is

/-- `adjacency_submsg`: the fields between the head of the message and its end. -/
def adjacencySubmsg (sync : Option ℕ) : List Fld :=
  l.setLoop sync (l.adjacencyCount sync) (List.range (l.adjacencyCount sync))

/-- The estimate for one member. -/
def memberSize (set : AdjacencySpace) (changed : Bool) (p : ℕ × Nonce × List UInt8) : ℕ :=
  estFields [.tportid] [(.adjCost, set.cost.str.length)] +
    (if changed then
      estFields [] [(.tport, set.tport.length), (.tportType, set.tportType.length)]
    else 0) +
    estFields [.bridge] [(.user, p.2.2.length)]

def memberSizes (i : ℕ) (set : AdjacencySpace) :
    ℕ → List (ℕ × Nonce × List UInt8) → ℕ × ℕ
  | last, [] => (last, 0)
  | last, p :: ps =>
    let r := memberSizes i set i ps
    (r.1, memberSize set (last ≠ i) p + r.2)

def setSizes (sync : Option ℕ) : ℕ → List ℕ → ℕ
  | _, [] => 0
  | last, i :: is =>
    match l.adjacencySet sync i with
    | none => setSizes sync last is
    | some set =>
      let r := memberSizes i set last (l.known set)
      r.2 + (if l.known set = [] then 0 else estFields [.remBridge, .remTportid] []) +
        setSizes sync r.1 is

/-- `adjacency_size`. -/
def adjacencySize (sync : Option ℕ) : ℕ :=
  submsgEst [] [] + l.setSizes sync (l.adjacencyCount sync) (List.range (l.adjacencyCount sync))

/-! ### The estimate is enough -/

theorem caps_memberFields (i : ℕ) (set : AdjacencySpace) (changed : Bool)
    (p : ℕ × Nonce × List UInt8) :
    Fld.caps (memberFields i set changed p) ≤ memberSize set changed p := by
  unfold memberFields memberSize
  cases changed <;> simp [Fld.cap, estFields, fidEst, fidEstLen] <;> omega

theorem caps_memberLoop (i : ℕ) (set : AdjacencySpace) (ps : List (ℕ × Nonce × List UInt8))
    (last : ℕ) :
    (memberLoop i set last ps).1 = (memberSizes i set last ps).1 ∧
    Fld.caps (memberLoop i set last ps).2 ≤ (memberSizes i set last ps).2 := by
  induction ps generalizing last with
  | nil => exact ⟨rfl, le_refl 0⟩
  | cons p ps ih =>
    have hp := caps_memberFields i set (last ≠ i) p
    refine ⟨(ih i).1, ?_⟩
    simp only [memberLoop, memberSizes, Fld.caps_append]
    exact Nat.add_le_add hp (ih i).2

theorem caps_remFields (set : AdjacencySpace) (last : ℕ) :
    Fld.caps (l.remFields set last) ≤ estFields [.remBridge, .remTportid] [] := by
  unfold remFields
  split
  · simp [Fld.cap, estFields, fidEst]
  · split
    · split <;> simp [Fld.cap, estFields, fidEst]
    · simp [Fld.cap, estFields, fidEst]

theorem caps_setLoop (sync : Option ℕ) (is : List ℕ) (last : ℕ) :
    Fld.caps (l.setLoop sync last is) ≤ l.setSizes sync last is := by
  induction is generalizing last with
  | nil => exact le_refl 0
  | cons i is ih =>
    unfold setLoop setSizes
    cases l.adjacencySet sync i with
    | none => exact ih last
    | some set =>
      obtain ⟨hlast, hmembers⟩ := caps_memberLoop i set (l.known set) last
      have hrem := l.caps_remFields set (lastUid (l.known set))
      have hrest := ih (memberSizes i set last (l.known set)).1
      simp only [setFields, Fld.caps_append, hlast]
      split
      · simp only [Fld.caps_nil]
        omega
      · omega

/-- `adjacency_size` is at least the bytes of the message inside of the message. -/
theorem length_adjacencySubmsg_le (sync : Option ℕ) :
    6 + ((l.adjacencySubmsg sync).flatMap Fld.bytes).length ≤ l.adjacencySize sync := by
  have hcaps := l.caps_setLoop sync (List.range (l.adjacencyCount sync)) (l.adjacencyCount sync)
  have hlen := Fld.length_flatMap_le (l.adjacencySubmsg sync)
  unfold adjacencySize submsgEst
  unfold adjacencySubmsg at hlen ⊢
  omega

end LinkStateDB

end Raims
