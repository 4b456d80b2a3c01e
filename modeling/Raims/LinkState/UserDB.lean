import Raims.LinkState.AdjacencyChange

/-!
# Link state and pending adjacency of the peers (`UserDB`)

What the link state functions of `UserDB` read and write: the peers' bridges by
uid, the two tables from bridge ids to uids, and `adjacency_unknown`, the list of
the records that name a peer not known yet. The counters that say whether a peer
has such records sit in its bridge, the records in the list.
-/

namespace Raims

/-- `AdjPending`, less the route and the times that only the requests read. -/
structure AdjPending where
  uid : ℕ
  /-- `link_state_seqno` of the peer once the records are applied -/
  linkStateSeqno : ℕ
  requestTimeMono : ℕ
  pendingSeqno : ℕ
  requestCount : ℕ
  recCount : ℕ
  recList : List AdjacencyRec

/-- `UserBridge`, as far as the link state is concerned. -/
structure UserBridge where
  nonce : Nonce
  authenticated : Bool
  zombie : Bool
  linkStateSeqno : ℕ
  /-- edge of `link_state_seqno` -/
  unknownLinkSeqno : ℕ
  /-- link refs yet to be resolved, 32 bits -/
  unknownAdjRefs : ℕ
  nullSyncRes : ℕ
  uidCsum : Nonce
  adjacency : AdjacencyTab

structure UserDB where
  nodeHt : UidTable
  zombieHt : UidTable
  bridgeTab : ℕ → Option UserBridge
  nextUid : ℕ
  adjacencyUnknown : List AdjPending
  /-- `adjacency_unknown.pending_seqno` -/
  pendingSeqno : ℕ

/-- The stages of a departure. -/
inductive Bye where
  | hbTimeout | byeBye | orphaned | source | dropped | ping | console
deriving DecidableEq

/-- `AdjacencyRequest`: the reasons `recv_adjacency_result` looks at. -/
inductive AdjacencyRequest where
  | dijkstraSync | dijkstraNull | other
deriving DecidableEq

/-! ## One bridge -/

namespace UserBridge

/-- A bridge made by `add_user`. -/
def new (nonce : Nonce) : UserBridge :=
  ⟨nonce, false, false, 0, 0, 0, 0, 0, AdjacencyTab.empty⟩

def members (tab : AdjacencyTab) (t : ℕ) : Finset ℕ :=
  ((tab.ptr t).map AdjacencySpace.members).getD ∅

/-- `add_adjacency_change`; `uid_csum` changes with the members. -/
def addAdjacencyChange (find : UidTable) (uid : ℕ) (n : UserBridge)
    (rec : AdjacencyRec) : UserBridge × Bool :=
  let r := n.adjacency.addChange find uid rec
  let flip := rec.tportid.any fun t => members r.1 t ≠ members n.adjacency t
  ({ n with
      adjacency := r.1
      uidCsum := if flip then n.uidCsum ^^^ rec.nonce.getD 0 else n.uidCsum }, r.2)

/-- `apply_adjacency_change`: the bridge and the records not applied. -/
def applyAdjacencyChange (find : UidTable) (uid : ℕ) :
    UserBridge → List AdjacencyRec → UserBridge × List AdjacencyRec
  | n, [] => (n, [])
  | n, rec :: recs =>
    let c := n.addAdjacencyChange find uid rec
    if c.2 then applyAdjacencyChange find uid c.1 recs
    else
      let r := applyAdjacencyChange find uid
        { c.1 with unknownAdjRefs := (c.1.unknownAdjRefs + 1) % 2 ^ 32 } recs
      (r.1, rec :: r.2)

/-- `update_link_state_seqno`, whose new value has 32 bits. -/
def updateLinkStateSeqno (n : UserBridge) (seqno : ℕ) : UserBridge :=
  { n with linkStateSeqno := seqno % 2 ^ 32 }

def clearUnknown (n : UserBridge) : UserBridge :=
  { n with unknownLinkSeqno := 0, unknownAdjRefs := 0 }

/-- The loop over `rec_list` in `add_unknown_adjacency`: the bridge, the records
left to count and those that stay pending. -/
def replayRecs (find : UidTable) (uid : ℕ) (nonce : Nonce) :
    List AdjacencyRec → UserBridge → ℕ → List AdjacencyRec →
      UserBridge × ℕ × List AdjacencyRec
  | [], m, count, pend => (m, count, pend)
  | rec :: recs, m, count, pend =>
    if rec.nonce.getD 0 = nonce ∨ rec.remBridge = some nonce then
      let c := m.addAdjacencyChange find uid rec
      if c.2 then
        let left := (count + (2 ^ 32 - 1)) % 2 ^ 32
        if left = 0 then (c.1, left, pend)
        else replayRecs find uid nonce recs c.1 left pend
      else replayRecs find uid nonce recs c.1 count (pend ++ [rec])
    else replayRecs find uid nonce recs m count (pend ++ [rec])

/-- The body of the loop of `add_unknown_adjacency` for the entry `p` of the
bridge `m`; `known` says that the bridge id has a user. -/
def replayPending (find : UidTable) (uid : ℕ) (known : Bool) (nonce : Nonce)
    (m : UserBridge) (p : AdjPending) : UserBridge × Option AdjPending :=
  if ¬ m.authenticated ∨ p.linkStateSeqno ≤ m.linkStateSeqno ∨
      m.unknownLinkSeqno ≠ p.linkStateSeqno then (m.clearUnknown, none)
  else if known then
    let r := m.replayRecs find uid nonce p.recList p.recCount []
    if r.2.1 = 0 then ((r.1.updateLinkStateSeqno p.linkStateSeqno).clearUnknown, none)
    else (r.1, some { p with recCount := r.2.1, recList := r.2.2 })
  else if p.recCount = 0 ∨ ∃ rec ∈ p.recList,
      rec.nonce.getD 0 = nonce ∨ rec.remBridge = some nonce then (m.clearUnknown, none)
  else (m, some p)

end UserBridge

/-! ## The database -/

namespace UserDB

def init (nonce : Nonce) : UserDB :=
  ⟨Function.update (fun _ => none) nonce (some 0), fun _ => none, fun _ => none, 1, [], 0⟩

/-- The lookup of a bridge id. -/
def find (db : UserDB) : UidTable := fun nonce => (db.nodeHt nonce).or (db.zombieHt nonce)

def modifyBridge (db : UserDB) (uid : ℕ) (f : UserBridge → UserBridge) : UserDB :=
  { db with bridgeTab := Function.update db.bridgeTab uid ((db.bridgeTab uid).map f) }

/-- `add_user`. -/
def addUser (db : UserDB) (nonce : Nonce) : UserDB :=
  { db with
    nodeHt := Function.update db.nodeHt nonce (some db.nextUid)
    bridgeTab := Function.update db.bridgeTab db.nextUid (some (.new nonce))
    nextUid := db.nextUid + 1 }

/-- The entry of `uid` that `save_unknown_adjacency` takes from the list when the
records are a change, and the list without it. -/
def takePending (db : UserDB) (uid : ℕ) (isChange : Bool) :
    Option AdjPending × List AdjPending :=
  if isChange then
    (db.adjacencyUnknown.find? (·.uid = uid), db.adjacencyUnknown.eraseP (·.uid = uid))
  else (none, db.adjacencyUnknown)

/-- The records of the entry taken, followed by the new ones, and their number. -/
def mergeRecs (sav : Option AdjPending) (recs : List AdjacencyRec) :
    List AdjacencyRec × ℕ :=
  match sav with
  | none => (recs, recs.length % 2 ^ 32)
  | some s =>
    if s.recList = [] then (recs, recs.length % 2 ^ 32)
    else (s.recList ++ recs, (recs.length % 2 ^ 32 + s.recCount) % 2 ^ 32)

/-- The entry to push and the last `pending_seqno`. A new entry is made unless
nothing is added to the old one; only a new one starts its requests over. -/
def savedEntry (uid seqno pendingSeqno : ℕ) (sav : Option AdjPending)
    (recs : List AdjacencyRec) : AdjPending × ℕ :=
  let all := mergeRecs sav recs
  let fresh : AdjPending := ⟨uid, seqno, 0, pendingSeqno + 1, 0, all.2, all.1.take all.2⟩
  match sav with
  | none => (fresh, pendingSeqno + 1)
  | some s =>
    if s.recCount < all.2 then (fresh, pendingSeqno + 1)
    else ({ s with linkStateSeqno := seqno }, pendingSeqno)

/-- `save_unknown_adjacency`. -/
def saveUnknownAdjacency (db : UserDB) (uid seqno : ℕ) (recs : List AdjacencyRec)
    (isChange : Bool) : UserDB :=
  let sav := db.takePending uid isChange
  let entry := savedEntry uid seqno db.pendingSeqno sav.1 recs
  { db.modifyBridge uid fun n => { n with unknownLinkSeqno := seqno } with
    adjacencyUnknown := sav.2 ++ [entry.1]
    pendingSeqno := entry.2 }

/-- One entry of `add_unknown_adjacency`: the bridges, and the entries kept. A
bridge is never freed, so the entry's uid always has one. -/
def replayStep (find : UidTable) (known : Bool) (nonce : Nonce)
    (s : (ℕ → Option UserBridge) × List AdjPending) (p : AdjPending) :
    (ℕ → Option UserBridge) × List AdjPending :=
  match s.1 p.uid with
  | none => s
  | some m =>
    let r := m.replayPending find p.uid known nonce p
    (Function.update s.1 p.uid (some r.1), s.2 ++ r.2.toList)

/-- `add_unknown_adjacency`. -/
def addUnknownAdjacency (db : UserDB) (known : Bool) (nonce : Nonce) : UserDB :=
  let s := db.adjacencyUnknown.foldl (replayStep db.find known nonce) (db.bridgeTab, [])
  { db with bridgeTab := s.1, adjacencyUnknown := s.2 }

/-- `clear_unknown_adjacency`, which is all that `remove_adjacency` does. -/
def clearUnknownAdjacency (db : UserDB) (uid : ℕ) : UserDB :=
  let db := db.modifyBridge uid UserBridge.clearUnknown
  { db with adjacencyUnknown := db.adjacencyUnknown.filter (·.uid ≠ uid) }

/-- `recv_adjacency_change`. -/
def recvAdjacencyChange (db : UserDB) (uid linkState : ℕ) (recs : List AdjacencyRec) :
    UserDB :=
  match db.bridgeTab uid with
  | none => db
  | some n =>
    let r := n.applyAdjacencyChange db.find uid recs
    let applied := db.modifyBridge uid fun _ => r.1
    if linkState ≠ n.linkStateSeqno + 1 then
      if linkState ≤ n.linkStateSeqno then db
      else if linkState = n.unknownLinkSeqno + 1 then
        applied.saveUnknownAdjacency uid linkState r.2 true
      else db
    else
      let saved :=
        if r.2 = [] then applied else applied.saveUnknownAdjacency uid linkState r.2 true
      if r.1.unknownAdjRefs = 0 then
        saved.modifyBridge uid fun n => n.updateLinkStateSeqno linkState
      else saved

/-- `if ( sync->unknown_adj_refs != 0 ) clear_unknown_adjacency( *sync )`. -/
def dropUnknown (db : UserDB) (uid : ℕ) : UserDB :=
  match db.bridgeTab uid with
  | none => db
  | some n => if n.unknownAdjRefs ≠ 0 then db.clearUnknownAdjacency uid else db

/-- A bridge before the records of its whole link state: the sets have no members
and no remote end. -/
def zeroAdjacency (n : UserBridge) : UserBridge :=
  { n with
    uidCsum := 0
    adjacency :=
      ⟨n.adjacency.count, fun t => (n.adjacency.ptr t).map fun set =>
        { set with members := ∅, remUid := 0, remTportId := 0 }⟩ }

/-- What `recv_adjacency_result` does with a link state that it takes. -/
def replaceAdjacency (db : UserDB) (uid linkState : ℕ) (recs : List AdjacencyRec) :
    UserDB :=
  let db := db.dropUnknown uid
  match db.bridgeTab uid with
  | none => db
  | some n =>
    let r := (zeroAdjacency n).applyAdjacencyChange db.find uid recs
    let applied := db.modifyBridge uid fun _ => { r.1 with nullSyncRes := 0 }
    if r.1.unknownAdjRefs = 0 then
      applied.modifyBridge uid fun n => n.updateLinkStateSeqno linkState
    else applied.saveUnknownAdjacency uid linkState r.2 false

/-- The link state is newer, or the sync was restarted (`SYNC_NULL`). -/
def TakesResult (n : UserBridge) (linkState : ℕ) (reas : AdjacencyRequest) : Prop :=
  n.linkStateSeqno < linkState ∨ (5 < n.nullSyncRes ∧ linkState = n.linkStateSeqno) ∨
    reas = .dijkstraNull

instance (n : UserBridge) (linkState : ℕ) (reas : AdjacencyRequest) :
    Decidable (TakesResult n linkState reas) :=
  inferInstanceAs (Decidable (_ ∨ _))

/-- The part of `recv_adjacency_result` for a message with the link state of the
authenticated peer `uid`; `quiet` says that no peer was added or removed in the
last five seconds. -/
def recvAdjacencyResult (db : UserDB) (uid linkState : ℕ) (recs : List AdjacencyRec)
    (reas : AdjacencyRequest) (quiet : Bool) : UserDB :=
  match db.bridgeTab uid with
  | none => db
  | some n =>
    if TakesResult n linkState reas then db.replaceAdjacency uid linkState recs
    else if reas ≠ .other ∧ quiet then
      db.modifyBridge uid fun n => { n with nullSyncRes := n.nullSyncRes + 1 }
    else db

/-- The states and tables that `add_authenticated` sets. -/
def setAuthenticated (db : UserDB) (uid : ℕ) (n : UserBridge) : UserDB :=
  { db.modifyBridge uid fun n => { n with zombie := false, authenticated := true } with
    zombieHt := if n.zombie then Function.update db.zombieHt n.nonce none else db.zombieHt
    nodeHt := if n.zombie then Function.update db.nodeHt n.nonce (some uid) else db.nodeHt }

/-- `add_authenticated`, when it does not refuse. -/
def addAuthenticated (db : UserDB) (uid : ℕ) : UserDB :=
  match db.bridgeTab uid with
  | none => db
  | some n =>
    let db := db.setAuthenticated uid n
    if db.adjacencyUnknown = [] then db else db.addUnknownAdjacency true n.nonce

/-- `remove_authenticated`. -/
def removeAuthenticated (db : UserDB) (uid : ℕ) (stage : Bye) : UserDB :=
  match db.bridgeTab uid with
  | none => db
  | some n =>
    let db :=
      if n.authenticated ∧ stage ≠ .hbTimeout ∧ stage ≠ .ping then db.clearUnknownAdjacency uid
      else db
    let db := db.modifyBridge uid fun n =>
      { n with
        authenticated := false
        zombie := true
        linkStateSeqno := 0
        uidCsum := 0
        adjacency := AdjacencyTab.empty }
    { db with
      nodeHt := Function.update db.nodeHt n.nonce none
      zombieHt :=
        if n.zombie then db.zombieHt
        else Function.update db.zombieHt n.nonce (some uid) }

/-- `pending_timeout_total`, in nanoseconds. -/
def pendingTimeoutTotal : ℕ := 1500000000

/-- The entry's last request has timed out. -/
def Due (now : ℕ) (p : AdjPending) : Prop :=
  ¬ (p.requestTimeMono ≠ 0 ∧ now ≤ p.requestTimeMono + pendingTimeoutTotal)

instance (now : ℕ) (p : AdjPending) : Decidable (Due now p) :=
  inferInstanceAs (Decidable (¬ (_ ∧ _)))

/-- The body of the loop of `process_unknown_adjacency`, less the requests it
sends: the entry, or none if it is given up. -/
def requestPending (now : ℕ) (p : AdjPending) : Option AdjPending :=
  if ¬ Due now p then some p
  else if 5 < p.requestCount ∨ p.recCount = 0 then none
  else some { p with requestTimeMono := now, requestCount := p.requestCount + 1 }

/-- `process_unknown_adjacency`. -/
def processUnknownAdjacency (db : UserDB) (now : ℕ) : UserDB :=
  { db with adjacencyUnknown := db.adjacencyUnknown.filterMap (requestPending now) }

/-! ## What can happen -/

/-- An event of the link state part of `UserDB`. `byePeer` is the `_Z.BYE` of a
peer the node never knew. -/
inductive Event where
  | addUser (nonce : Nonce)
  | addAuthenticated (uid : ℕ)
  | removeAuthenticated (uid : ℕ) (stage : Bye)
  | recvAdjacencyChange (uid linkState : ℕ) (recs : List AdjacencyRec)
  | recvAdjacencyResult (uid linkState : ℕ) (recs : List AdjacencyRec)
      (reas : AdjacencyRequest) (quiet : Bool)
  | byePeer (nonce : Nonce)
  | processUnknownAdjacency (now : ℕ)

def step (db : UserDB) : Event → UserDB
  | .addUser nonce => db.addUser nonce
  | .addAuthenticated uid => db.addAuthenticated uid
  | .removeAuthenticated uid stage => db.removeAuthenticated uid stage
  | .recvAdjacencyChange uid linkState recs => db.recvAdjacencyChange uid linkState recs
  | .recvAdjacencyResult uid linkState recs reas quiet =>
    db.recvAdjacencyResult uid linkState recs reas quiet
  | .byePeer nonce => db.addUnknownAdjacency false nonce
  | .processUnknownAdjacency now => db.processUnknownAdjacency now

end UserDB

end Raims
