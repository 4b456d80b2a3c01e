import Mathlib.Data.Finset.Image
import Raims.Lib.FifoFlood

/-!
# Broadcast of link state changes (`bcast_pub`)

A change of its links is multicast by a node over its transports, and each node
that takes it does the same, unless the peers of a transport were all sent to
before. The changes have numbers in two sequences: `seqno` is shared with other
messages between peers, and a message that is not above the last is dropped;
`link_state` counts the changes, and where one is missing the whole adjacency is
asked for. Connections keep the order, so that none is missing.
-/

namespace Raims

namespace ChangeFlood

variable {ν : Type*} [DecidableEq ν]

/-- A connection of a transport: the socket, and the peer at the other end. -/
structure Conn (ν : Type*) where
  fd : ℕ
  uid : ν

/-- `TransportRoute`: the connections, all of them authenticated. -/
structure Tport (ν : Type*) where
  isIpc : Bool
  connected : List (Conn ν)

namespace Tport

def connectCount (rte : Tport ν) : ℕ := rte.connected.length

def uidConnected (rte : Tport ν) : Finset ν := (rte.connected.map Conn.uid).toFinset

def fds (rte : Tport ν) : List ℕ := rte.connected.map Conn.fd

/-- `forward_to_connected_auth`; on the transport that the message came from, at
`arrived`, `forward_to_connected_auth_not_fd`, if there is another connection. -/
def forward (rte : Tport ν) (i : ℕ) : Option (ℕ × ℕ) → List ℕ
  | none => rte.fds
  | some (j, fd) =>
    if i ≠ j then rte.fds else if 1 < rte.connectCount then rte.fds.filter (· ≠ fd) else []

end Tport

/-- The loop over `transport_tab` from `i` on: the transports and sockets that a message
goes out on. `unique` has the peers that it was sent to. -/
def bcastLoop (arrived : Option (ℕ × ℕ)) : ℕ → Finset ν → List (Tport ν) → List (ℕ × ℕ)
  | _, _, [] => []
  | i, unique, rte :: tab =>
    if 0 < rte.connectCount ∧ ¬rte.isIpc ∧ ¬rte.uidConnected ⊆ unique then
      (rte.forward i arrived).map (i, ·) ++
        bcastLoop arrived (i + 1) (unique ∪ rte.uidConnected) tab
    else bcastLoop arrived (i + 1) unique tab

/-- `bcast_pub`, of a message of `n` that came over the socket `fd` of the transport `rte`. -/
def bcastPub (tab : List (Tport ν)) (n : ν) (rte fd : ℕ) : List (ℕ × ℕ) :=
  if 1 < tab.length ∨ 1 < (tab[rte]?).elim 0 Tport.connectCount then
    bcastLoop (some (rte, fd)) 0 {n} tab
  else []

/-- What `send_adjacency_change` sends its message on. -/
def sendPorts (tab : List (Tport ν)) : List (ℕ × ℕ) := bcastLoop none 0 ∅ tab

/-- `U_ADJACENCY`, with its link state, or `U_PEER_ADD`, `U_PEER_DEL`, `U_BLOOM_FILTER`. -/
inductive Kind where
  | adjacency (linkState : ℕ)
  | peerAdd
  | peerDel
  | bloomFilter
deriving DecidableEq

def Kind.isAdjacency : Kind → Bool
  | adjacency _ => true
  | _ => false

def Kind.linkState : Kind → ℕ
  | adjacency linkState => linkState
  | _ => 0

structure Msg (ν : Type*) where
  src : ν
  seqno : ℕ
  kind : Kind

/-- `HAVE_ADJ_CHANGE`, `NEED_ADJ_SYNC` and `UPDATE_ADJ_CHANGE`. -/
inductive AdjacencyChange where
  | haveAdjChange
  | needAdjSync
  | updateAdjChange
deriving DecidableEq

/-- What a `UserBridge` has of the numbers of its peer, and what `recv_adjacency_change`
told `events`. -/
structure Bridge where
  peerRecvSeqno : ℕ
  linkStateSeqno : ℕ
  events : List AdjacencyChange

/-- `recv_adjacency_change`, at a node that knows all peers in the records. -/
def Bridge.recvAdjacencyChange (n : Bridge) (linkState : ℕ) : Bridge :=
  if linkState ≠ n.linkStateSeqno + 1 then
    { n with events := n.events ++
        [if n.linkStateSeqno ≥ linkState then .haveAdjChange else .needAdjSync] }
  else { n with linkStateSeqno := linkState, events := n.events ++ [.updateAdjChange] }

/-- The numbers of the peer after a message that is dispatched. -/
def Bridge.recv (n : Bridge) (seqno : ℕ) : Kind → Bridge
  | .adjacency linkState => { n with peerRecvSeqno := seqno }.recvAdjacencyChange linkState
  | _ => { n with peerRecvSeqno := seqno }

/-- The part of `UserDB` with the numbers of the peer messages. -/
structure Node (ν : Type*) where
  sendPeerSeqno : ℕ
  linkStateSeqno : ℕ
  bridgeTab : ν → Bridge

/-- An end of a connection. -/
structure Port (ν : Type*) where
  node : ν
  tport : ℕ
  fd : ℕ
deriving DecidableEq

/-- The transports of each node, and the other end of each connection. -/
structure Topology (ν : Type*) where
  transportTab : ν → List (Tport ν)
  far : Port ν → Port ν

namespace Topology

variable (T : Topology ν)

/-- `p` is a connection to `y`. -/
def Connects (p : Port ν) (y : ν) : Prop :=
  ∃ rte, (T.transportTab p.node)[p.tport]? = some rte ∧ rte.isIpc = false ∧
    ⟨p.fd, y⟩ ∈ rte.connected

/-- Each connection has two ends. -/
structure Paired : Prop where
  far_node : ∀ p y, T.Connects p y → (T.far p).node = y
  far_connects : ∀ p y, T.Connects p y → T.Connects (T.far p) p.node
  far_far : ∀ p y, T.Connects p y → T.far (T.far p) = p

/-- The ports of `x` that the messages of `s` go out on when they are broadcast, wherever
they come from. -/
def floodPorts (x s : ν) : List (ℕ × ℕ) :=
  if x = s then sendPorts (T.transportTab x) else bcastLoop none 0 {s} (T.transportTab x)

end Topology

/-- All nodes, what was sent over each connection, and what is on the way. -/
structure Net (ν : Type*) where
  node : ν → Node ν
  sent : List (Msg ν)
  wire : Port ν → List (Msg ν)
  queue : Port ν → List (Msg ν)

inductive Event (ν : Type*) where
  /-- `send_adjacency_change` -/
  | change (s : ν)
  /-- `send_peer_add`, `send_peer_del` and blooms: on some of the connections -/
  | other (s : ν) (kind : Kind) (outs : List (ℕ × ℕ))
  /-- what is first on the connection arrives; if it is a bloom, `mcast_pub` sends it on -/
  | recv (p : Port ν) (outs : List (ℕ × ℕ))

namespace Net

def init : Net ν where
  node := fun _ => ⟨0, 0, fun _ => ⟨0, 0, []⟩⟩
  sent := []
  wire := fun _ => []
  queue := fun _ => []

/-- `m` goes out of `x` on the connections in `outs`. -/
def push (net : Net ν) (x : ν) (outs : List (ℕ × ℕ)) (m : Msg ν) : Net ν :=
  { net with
    wire := fun p =>
      if p.node = x ∧ (p.tport, p.fd) ∈ outs then net.wire p ++ [m] else net.wire p
    queue := fun p =>
      if p.node = x ∧ (p.tport, p.fd) ∈ outs then net.queue p ++ [m] else net.queue p }

def pop (net : Net ν) (p : Port ν) : Net ν :=
  { net with queue := Function.update net.queue p (net.queue p).tail }

def setNode (net : Net ν) (x : ν) (n : Node ν) : Net ν :=
  { net with node := Function.update net.node x n }

/-- The node `n` at `s` sends a message with its next number. -/
def send (net : Net ν) (s : ν) (n : Node ν) (kind : Kind) (outs : List (ℕ × ℕ)) : Net ν :=
  let m : Msg ν := ⟨s, n.sendPeerSeqno + 1, kind⟩
  ({ net with sent := net.sent ++ [m] }.setNode s
    { n with sendPeerSeqno := n.sendPeerSeqno + 1 }).push s outs m

variable (T : Topology ν)

/-- `send_adjacency_change` -/
def sendAdjacencyChange (net : Net ν) (s : ν) : Net ν :=
  let n := net.node s
  net.send s { n with linkStateSeqno := n.linkStateSeqno + 1 }
    (.adjacency (n.linkStateSeqno + 1)) (sendPorts (T.transportTab s))

/-- What a message is passed on over: a bloom over `outs`, and what comes and goes nowhere. -/
def forwards (port : Port ν) (m : Msg ν) (outs : List (ℕ × ℕ)) : List (ℕ × ℕ) :=
  match m.kind with
  | .adjacency _ => bcastPub (T.transportTab port.node) m.src port.tport port.fd
  | .bloomFilter => outs
  | .peerAdd => []
  | .peerDel => []

/-- What `on_msg` does with a message whose number is new. -/
def dispatch (net : Net ν) (port : Port ν) (m : Msg ν) (outs : List (ℕ × ℕ)) : Net ν :=
  let db := net.node port.node
  (net.setNode port.node { db with
    bridgeTab := Function.update db.bridgeTab m.src ((db.bridgeTab m.src).recv m.seqno m.kind) }).push
    port.node (forwards T port m outs) m

/-- `on_msg`, of the peer messages. -/
def onMsg (net : Net ν) (port : Port ν) (m : Msg ν) (outs : List (ℕ × ℕ)) : Net ν :=
  if m.src = port.node then net
  else if m.seqno > ((net.node port.node).bridgeTab m.src).peerRecvSeqno then
    net.dispatch T port m outs
  else net

def step (net : Net ν) : Event ν → Net ν
  | .change s => net.sendAdjacencyChange T s
  | .other s kind outs => net.send s (net.node s) kind outs
  | .recv p outs =>
    match net.queue p with
    | [] => net
    | m :: _ => (net.pop p).onMsg T (T.far p) m outs

end Net

/-- Whatever is not a change goes over connections that the changes go over too, as it
does when no two connections are to the same peer. -/
def Event.Follows (T : Topology ν) (net : Net ν) : Event ν → Prop
  | .change _ => True
  | .other s kind outs => kind.isAdjacency = false ∧ outs ⊆ T.floodPorts s s
  | .recv p outs => ∀ m ∈ (net.queue p).head?, outs ⊆ T.floodPorts (T.far p).node m.src

inductive Run (T : Topology ν) : Net ν → Prop
  | init : Run T Net.init
  | step {net : Net ν} (h : Run T net) (e : Event ν) (he : e.Follows T net) :
      Run T (net.step T e)

/-! ## Which connections a broadcast goes over -/

omit [DecidableEq ν] in
theorem Tport.forward_arrived (rte : Tport ν) {i j fd : ℕ} (h : i = j → fd ∈ rte.fds) :
    rte.forward i (some (j, fd)) = rte.fds.filter fun f => (i, f) ≠ (j, fd) := by
  rw [Tport.forward]
  split_ifs with hne hcount
  · refine (List.filter_eq_self.2 fun f _ => ?_).symm
    exact decide_eq_true fun heq => hne (congrArg Prod.fst heq)
  · have hij : i = j := not_not.1 hne
    subst hij
    refine List.filter_congr fun f _ => ?_
    simp
  · -- the message came over the only connection
    have hij : i = j := not_not.1 hne
    have hmem := h hij
    have hlen : rte.fds.length ≤ 1 := by
      rw [Tport.fds, List.length_map]
      exact Nat.not_lt.1 hcount
    obtain ⟨f, hf⟩ : ∃ f, rte.fds = [f] := by
      rw [← List.length_eq_one_iff]
      have := List.length_pos_of_mem hmem
      omega
    rw [hf] at hmem ⊢
    obtain rfl := List.mem_singleton.1 hmem
    subst hij
    simp

/-- Where the message came from changes nothing but that it does not go back there. -/
theorem bcastLoop_arrived {j fd : ℕ} (tab : List (Tport ν)) (i : ℕ) (unique : Finset ν)
    (h : ∀ rte, i ≤ j → tab[j - i]? = some rte → fd ∈ rte.fds) :
    bcastLoop (some (j, fd)) i unique tab =
      (bcastLoop none i unique tab).filter (· ≠ (j, fd)) := by
  induction tab generalizing i unique with
  | nil => rfl
  | cons rte tab ih =>
    have hrest : ∀ r, i + 1 ≤ j → tab[j - (i + 1)]? = some r → fd ∈ r.fds := by
      intro r hij hr
      refine h r (by omega) ?_
      rw [show j - i = j - (i + 1) + 1 by omega, List.getElem?_cons_succ]
      exact hr
    have hhead : i = j → fd ∈ rte.fds := by
      rintro rfl
      exact h rte le_rfl (by rw [Nat.sub_self]; rfl)
    rw [bcastLoop, bcastLoop]
    split_ifs
    · rw [List.filter_append, List.filter_map, ih _ _ hrest, rte.forward_arrived hhead]
      rfl
    · exact ih _ _ hrest

theorem mem_bcastLoop {tab : List (Tport ν)} {i : ℕ} {unique : Finset ν} {k f : ℕ}
    (h : (k, f) ∈ bcastLoop none i unique tab) :
    i ≤ k ∧ ∃ rte, tab[k - i]? = some rte ∧ rte.isIpc = false ∧ f ∈ rte.fds := by
  induction tab generalizing i unique with
  | nil => exact absurd h List.not_mem_nil
  | cons rte tab ih =>
    have hrest : ∀ {u}, (k, f) ∈ bcastLoop none (i + 1) u tab →
        i ≤ k ∧ ∃ r, (rte :: tab)[k - i]? = some r ∧ r.isIpc = false ∧ f ∈ r.fds := by
      intro u hin
      obtain ⟨hle, r, hr, hrest⟩ := ih hin
      refine ⟨by omega, r, ?_, hrest⟩
      rw [show k - i = k - (i + 1) + 1 by omega, List.getElem?_cons_succ]
      exact hr
    rw [bcastLoop] at h
    split_ifs at h with hc
    · rcases List.mem_append.1 h with h | h
      · obtain ⟨g, hg, heq⟩ := List.mem_map.1 h
        obtain ⟨rfl, rfl⟩ := Prod.mk.inj heq
        refine ⟨le_rfl, rte, by rw [Nat.sub_self]; rfl, ?_, hg⟩
        exact Bool.eq_false_iff.2 hc.2.1
      · exact hrest h
    · exact hrest h

/-- A transport is left out only if its peers are sent to on another one. -/
theorem bcastLoop_covers {tab : List (Tport ν)} {i : ℕ} {unique : Finset ν} {j : ℕ}
    {rte : Tport ν} (hrte : tab[j]? = some rte) (hipc : rte.isIpc = false) {c : Conn ν}
    (hc : c ∈ rte.connected) :
    c.uid ∈ unique ∨ ∃ k f, (k, f) ∈ bcastLoop none i unique tab ∧ i ≤ k ∧
      ∃ r, tab[k - i]? = some r ∧ r.isIpc = false ∧ ⟨f, c.uid⟩ ∈ r.connected := by
  have huid : ∀ {r : Tport ν} {y : ν}, y ∈ r.uidConnected → ∃ f, ⟨f, y⟩ ∈ r.connected := by
    intro r y hy
    obtain ⟨d, hd, rfl⟩ := List.mem_map.1 (List.mem_toFinset.1 hy)
    exact ⟨d.fd, hd⟩
  induction tab generalizing i unique j with
  | nil => exact absurd hrte (by simp)
  | cons r tab ih =>
    have hmem : c.uid ∈ rte.uidConnected := List.mem_toFinset.2 (List.mem_map_of_mem hc)
    -- the first transport: sent to, left out, or without any connection
    have hsent : ∀ {y : ν}, y ∈ r.uidConnected → r.isIpc = false →
        ¬r.uidConnected ⊆ unique → ∃ k f, (k, f) ∈ bcastLoop none i unique (r :: tab) ∧ i ≤ k ∧
          ∃ r', (r :: tab)[k - i]? = some r' ∧ r'.isIpc = false ∧ ⟨f, y⟩ ∈ r'.connected := by
      intro y hy hr hns
      obtain ⟨f, hf⟩ := huid hy
      have hpos : 0 < r.connectCount := List.length_pos_of_mem hf
      refine ⟨i, f, ?_, le_rfl, r, by rw [Nat.sub_self]; rfl, hr, hf⟩
      rw [bcastLoop, if_pos ⟨hpos, by simp [hr], hns⟩]
      refine List.mem_append_left _ (List.mem_map.2 ⟨f, ?_, rfl⟩)
      exact List.mem_map.2 ⟨_, hf, rfl⟩
    have hlater : ∀ {u : Finset ν}, (∀ x ∈ bcastLoop none (i + 1) u tab,
        x ∈ bcastLoop none i unique (r :: tab)) →
        (∃ k f, (k, f) ∈ bcastLoop none (i + 1) u tab ∧ i + 1 ≤ k ∧
          ∃ r', tab[k - (i + 1)]? = some r' ∧ r'.isIpc = false ∧ ⟨f, c.uid⟩ ∈ r'.connected) →
        ∃ k f, (k, f) ∈ bcastLoop none i unique (r :: tab) ∧ i ≤ k ∧
          ∃ r', (r :: tab)[k - i]? = some r' ∧ r'.isIpc = false ∧
            ⟨f, c.uid⟩ ∈ r'.connected := by
      rintro u hsub ⟨k, f, hin, hk, r', hr', hrest⟩
      refine ⟨k, f, hsub _ hin, by omega, r', ?_, hrest⟩
      rw [show k - i = k - (i + 1) + 1 by omega, List.getElem?_cons_succ]
      exact hr'
    by_cases htest : 0 < r.connectCount ∧ ¬r.isIpc ∧ ¬r.uidConnected ⊆ unique
    · have hloop : ∀ x ∈ bcastLoop none (i + 1) (unique ∪ r.uidConnected) tab,
          x ∈ bcastLoop none i unique (r :: tab) := by
        intro x hx
        rw [bcastLoop, if_pos htest]
        exact List.mem_append_right _ hx
      have hipc' : r.isIpc = false := Bool.eq_false_iff.2 htest.2.1
      cases j with
      | zero =>
        obtain rfl : r = rte := Option.some.inj hrte
        exact .inr (hsent hmem hipc' htest.2.2)
      | succ j =>
        rw [List.getElem?_cons_succ] at hrte
        rcases @ih (i + 1) (unique ∪ r.uidConnected) j hrte with hin | hin
        · rcases Finset.mem_union.1 hin with hin | hin
          · exact .inl hin
          · exact .inr (hsent hin hipc' htest.2.2)
        · exact .inr (hlater hloop hin)
    · have hloop : ∀ x ∈ bcastLoop none (i + 1) unique tab,
          x ∈ bcastLoop none i unique (r :: tab) := by
        intro x hx
        rw [bcastLoop, if_neg htest]
        exact hx
      cases j with
      | zero =>
        obtain rfl : r = rte := Option.some.inj hrte
        by_cases hns : r.uidConnected ⊆ unique
        · exact .inl (hns hmem)
        · exact .inr (hsent hmem hipc hns)
      | succ j =>
        rw [List.getElem?_cons_succ] at hrte
        exact (@ih (i + 1) unique j hrte).imp_right (hlater hloop)

theorem bcastPub_eq {tab : List (Tport ν)} {n : ν} {j fd : ℕ} {rte : Tport ν}
    (hrte : tab[j]? = some rte) (hfd : fd ∈ rte.fds) :
    bcastPub tab n j fd = (bcastLoop none 0 {n} tab).filter (· ≠ (j, fd)) := by
  rw [bcastPub]
  split_ifs with hmore
  · refine bcastLoop_arrived tab 0 {n} fun r _ hr => ?_
    rw [Nat.sub_zero, hrte] at hr
    rw [← Option.some.inj hr]
    exact hfd
  · -- one transport with one connection
    rw [hrte] at hmore
    have hlen : tab.length ≤ 1 ∧ rte.fds.length ≤ 1 := by
      rw [not_or, Nat.not_lt, Nat.not_lt] at hmore
      refine ⟨hmore.1, ?_⟩
      rw [Tport.fds, List.length_map]
      exact hmore.2
    have hj := (List.getElem?_eq_some_iff.1 hrte).1
    symm
    refine List.filter_eq_nil_iff.2 fun x hx hne => ?_
    obtain ⟨k, f⟩ := x
    obtain ⟨-, r, hr, -, hf⟩ := mem_bcastLoop hx
    rw [Nat.sub_zero] at hr
    have hk := (List.getElem?_eq_some_iff.1 hr).1
    obtain rfl : k = j := by omega
    rw [hrte] at hr
    obtain rfl := Option.some.inj hr
    obtain ⟨g, hg⟩ := List.length_eq_one_iff.1
      (Nat.le_antisymm hlen.2 (List.length_pos_of_mem hf))
    rw [hg] at hf hfd
    rw [List.mem_singleton.1 hf, List.mem_singleton.1 hfd] at hne
    exact of_decide_eq_true hne rfl

namespace Topology

variable {T : Topology ν} {x s : ν}

theorem connects_of_mem {k f : ℕ} (h : (k, f) ∈ T.floodPorts x s) :
    ∃ y, T.Connects ⟨x, k, f⟩ y := by
  have hloop : ∃ u, (k, f) ∈ bcastLoop none 0 u (T.transportTab x) := by
    rw [floodPorts] at h
    split_ifs at h
    · exact ⟨_, h⟩
    · exact ⟨_, h⟩
  obtain ⟨u, hu⟩ := hloop
  obtain ⟨-, rte, hrte, hipc, hf⟩ := mem_bcastLoop hu
  obtain ⟨c, hc, rfl⟩ := List.mem_map.1 hf
  exact ⟨c.uid, rte, hrte, hipc, hc⟩

/-- Every peer but the source is sent to, by one of the connections to it. -/
theorem floodPorts_covers {p : Port ν} {y : ν} (h : T.Connects p y) (hy : y ≠ s) :
    ∃ k f, (k, f) ∈ T.floodPorts p.node s ∧ T.Connects ⟨p.node, k, f⟩ y := by
  obtain ⟨rte, hrte, hipc, hc⟩ := h
  have hcover : ∀ u : Finset ν, y ∉ u →
      ∃ k f, (k, f) ∈ bcastLoop none 0 u (T.transportTab p.node) ∧
        T.Connects ⟨p.node, k, f⟩ y := by
    intro u hu
    rcases bcastLoop_covers hrte hipc hc with hin | ⟨k, f, hmem, -, r, hr, hipc', hf⟩
    · exact absurd hin hu
    · exact ⟨k, f, hmem, r, hr, hipc', hf⟩
  rw [floodPorts]
  split_ifs
  · exact hcover ∅ (Finset.notMem_empty y)
  · exact hcover {s} fun hin => hy (Finset.mem_singleton.1 hin)

/-- No two connections of a node lead to the same peer. -/
def Single (T : Topology ν) : Prop :=
  ∀ (p q : Port ν) (y : ν), q.node = p.node → T.Connects p y → T.Connects q y → q = p

/-- `outs` are connections of `x` that do not lead back to `s`. -/
def LeadOn (T : Topology ν) (x s : ν) (outs : List (ℕ × ℕ)) : Prop :=
  ∀ out ∈ outs, ∃ y, y ≠ s ∧ T.Connects ⟨x, out.1, out.2⟩ y

/-- Where there is one connection to each peer, a broadcast takes all that do not lead back
to the source. -/
theorem floodPorts_of_single (h : T.Single) {outs : List (ℕ × ℕ)} (houts : T.LeadOn x s outs) :
    outs ⊆ T.floodPorts x s := by
  intro out hout
  obtain ⟨y, hy, hc⟩ := houts out hout
  obtain ⟨k, g, hmem, hc'⟩ := floodPorts_covers hc hy
  have hport := Port.mk.inj (h ⟨x, out.1, out.2⟩ ⟨x, k, g⟩ y rfl hc hc')
  rwa [hport.2.1, hport.2.2] at hmem

end Topology

/-! ## The messages of one node -/

def Msg.toFlood (m : Msg ν) : FifoFlood.Msg := ⟨m.seqno, m.kind.isAdjacency⟩

/-- The messages of `s` in a list. -/
def ofSrc (s : ν) (l : List (Msg ν)) : List FifoFlood.Msg :=
  (l.filter (·.src = s)).map Msg.toFlood

/-- The changes of `s` in a list. -/
def changes (s : ν) (l : List (Msg ν)) : List (Msg ν) :=
  (l.filter (·.src = s)).filter (·.kind.isAdjacency)

theorem changes_append (s : ν) (l l' : List (Msg ν)) :
    changes s (l ++ l') = changes s l ++ changes s l' := by
  rw [changes, List.filter_append, List.filter_append]
  rfl

theorem floods_ofSrc (s : ν) (l : List (Msg ν)) :
    FifoFlood.floods (ofSrc s l) = (changes s l).map Msg.seqno := by
  rw [FifoFlood.floods, ofSrc, List.filter_map, List.map_map]
  rfl

theorem ofSrc_append (s : ν) (l l' : List (Msg ν)) :
    ofSrc s (l ++ l') = ofSrc s l ++ ofSrc s l' := by
  rw [ofSrc, List.filter_append, List.map_append]
  rfl

theorem ofSrc_cons_self {s : ν} {m : Msg ν} (h : m.src = s) (l : List (Msg ν)) :
    ofSrc s (m :: l) = m.toFlood :: ofSrc s l := by
  rw [ofSrc, List.filter_cons_of_pos (by simpa using h)]
  rfl

theorem ofSrc_cons_of_ne {s : ν} {m : Msg ν} (h : m.src ≠ s) (l : List (Msg ν)) :
    ofSrc s (m :: l) = ofSrc s l := by
  rw [ofSrc, List.filter_cons_of_neg (by simpa using h)]
  rfl

/-- The ports of `x` in a list. -/
def portsOf (x : ν) (outs : List (ℕ × ℕ)) : Finset (Port ν) :=
  (outs.map fun q => ⟨x, q.1, q.2⟩).toFinset

theorem mem_portsOf {x : ν} {outs : List (ℕ × ℕ)} {p : Port ν} :
    p ∈ portsOf x outs ↔ p.node = x ∧ (p.tport, p.fd) ∈ outs := by
  rw [portsOf, List.mem_toFinset, List.mem_map]
  constructor
  · rintro ⟨q, hq, rfl⟩
    exact ⟨rfl, hq⟩
  · rintro ⟨rfl, hq⟩
    exact ⟨_, hq, rfl⟩

def Topology.links (T : Topology ν) (s : ν) : Set (Port ν) :=
  { p | (p.tport, p.fd) ∈ T.floodPorts p.node s }

def Topology.dst (T : Topology ν) (p : Port ν) : ν := (T.far p).node

theorem mem_queue_push {net : Net ν} {x : ν} {outs : List (ℕ × ℕ)} {m m' : Msg ν} {p : Port ν}
    (h : m' ∈ (net.push x outs m).queue p) : m' ∈ net.queue p ∨ m' = m := by
  have h : m' ∈ if p.node = x ∧ (p.tport, p.fd) ∈ outs then net.queue p ++ [m] else net.queue p := h
  split_ifs at h
  · rcases List.mem_append.1 h with h | h
    · exact .inl h
    · exact .inr (List.mem_singleton.1 h)
  · exact .inl h

theorem mem_queue_pop {net : Net ν} {m : Msg ν} {p p' : Port ν}
    (h : m ∈ (net.pop p).queue p') : m ∈ net.queue p' := by
  have h : m ∈ Function.update net.queue p (net.queue p).tail p' := h
  by_cases hp : p' = p
  · rw [hp, Function.update_self] at h
    rw [hp]
    exact List.mem_of_mem_tail h
  · rw [Function.update_of_ne hp] at h
    exact h

/-- `f` is what the net is for the messages of `s` alone. -/
structure Sim (s : ν) (net : Net ν) (f : FifoFlood.Net ν (Port ν)) : Prop where
  sent : f.sent = ofSrc s net.sent
  wire : ∀ p, f.wire p = ofSrc s (net.wire p)
  queue : ∀ p, f.queue p = ofSrc s (net.queue p)
  last_self : f.last s = (net.node s).sendPeerSeqno
  last : ∀ y, y ≠ s → f.last y = ((net.node y).bridgeTab s).peerRecvSeqno
  known : ∀ p, ∀ m ∈ net.queue p, m ∈ net.sent
  states : (changes s net.sent).map (·.kind.linkState) =
    List.range' 1 (net.node s).linkStateSeqno
  bridge : ∀ y, y ≠ s →
    ((net.node y).bridgeTab s).linkStateSeqno = (f.log y).length ∧
      ((net.node y).bridgeTab s).events = List.replicate (f.log y).length .updateAdjChange

namespace Sim

variable {s : ν} {net : Net ν} {f : FifoFlood.Net ν (Port ν)} {m : Msg ν}

theorem init : Sim s (Net.init : Net ν) FifoFlood.Net.init where
  sent := rfl
  wire := fun _ => rfl
  queue := fun _ => rfl
  last_self := rfl
  last := fun _ _ => rfl
  known := fun _ _ hm => absurd hm List.not_mem_nil
  states := rfl
  bridge := fun _ _ => ⟨rfl, rfl⟩

theorem push (h : Sim s net f) (hm : m.src = s) (hsent : m ∈ net.sent) (x : ν)
    (outs : List (ℕ × ℕ)) :
    Sim s (net.push x outs m) (f.push (portsOf x outs) m.toFlood) where
  sent := h.sent
  wire := by
    intro p
    show (if p ∈ portsOf x outs then f.wire p ++ [m.toFlood] else f.wire p) =
      ofSrc s (if p.node = x ∧ (p.tport, p.fd) ∈ outs then net.wire p ++ [m] else net.wire p)
    by_cases hp : p.node = x ∧ (p.tport, p.fd) ∈ outs
    · rw [if_pos hp, if_pos (mem_portsOf.2 hp), ofSrc_append, ofSrc_cons_self hm, h.wire p]
      rfl
    · rw [if_neg hp, if_neg (mt mem_portsOf.1 hp), h.wire p]
  queue := by
    intro p
    show (if p ∈ portsOf x outs then f.queue p ++ [m.toFlood] else f.queue p) =
      ofSrc s (if p.node = x ∧ (p.tport, p.fd) ∈ outs then net.queue p ++ [m] else net.queue p)
    by_cases hp : p.node = x ∧ (p.tport, p.fd) ∈ outs
    · rw [if_pos hp, if_pos (mem_portsOf.2 hp), ofSrc_append, ofSrc_cons_self hm, h.queue p]
      rfl
    · rw [if_neg hp, if_neg (mt mem_portsOf.1 hp), h.queue p]
  last_self := h.last_self
  last := h.last
  known := by
    intro p m' hm'
    rcases mem_queue_push hm' with hm' | rfl
    · exact h.known p m' hm'
    · exact hsent
  states := h.states
  bridge := h.bridge

theorem push_other (h : Sim s net f) (hm : m.src ≠ s) (hsent : m ∈ net.sent) (x : ν)
    (outs : List (ℕ × ℕ)) : Sim s (net.push x outs m) f where
  sent := h.sent
  wire := by
    intro p
    show _ = ofSrc s (if p.node = x ∧ (p.tport, p.fd) ∈ outs then net.wire p ++ [m] else net.wire p)
    split_ifs
    · rw [ofSrc_append, ofSrc_cons_of_ne hm, h.wire p]
      exact (List.append_nil _).symm
    · exact h.wire p
  queue := by
    intro p
    show _ = ofSrc s (if p.node = x ∧ (p.tport, p.fd) ∈ outs then net.queue p ++ [m] else
      net.queue p)
    split_ifs
    · rw [ofSrc_append, ofSrc_cons_of_ne hm, h.queue p]
      exact (List.append_nil _).symm
    · exact h.queue p
  last_self := h.last_self
  last := h.last
  known := by
    intro p m' hm'
    rcases mem_queue_push hm' with hm' | rfl
    · exact h.known p m' hm'
    · exact hsent
  states := h.states
  bridge := h.bridge

theorem pop (h : Sim s net f) {p : Port ν} {t : List (Msg ν)} (hq : net.queue p = m :: t)
    (hm : m.src = s) : Sim s (net.pop p) (f.pop p) where
  sent := h.sent
  wire := h.wire
  queue := by
    intro p'
    show Function.update f.queue p (f.queue p).tail p' =
      ofSrc s (Function.update net.queue p (net.queue p).tail p')
    by_cases hp : p' = p
    · rw [hp, Function.update_self, Function.update_self, h.queue p, hq, ofSrc_cons_self hm]
      rfl
    · rw [Function.update_of_ne hp, Function.update_of_ne hp, h.queue p']
  last_self := h.last_self
  last := h.last
  known := fun p' m' hm' => h.known p' m' (mem_queue_pop hm')
  states := h.states
  bridge := h.bridge

theorem pop_other (h : Sim s net f) {p : Port ν} {t : List (Msg ν)} (hq : net.queue p = m :: t)
    (hm : m.src ≠ s) : Sim s (net.pop p) f where
  sent := h.sent
  wire := h.wire
  queue := by
    intro p'
    show _ = ofSrc s (Function.update net.queue p (net.queue p).tail p')
    by_cases hp : p' = p
    · rw [hp, Function.update_self, h.queue p, hq, ofSrc_cons_of_ne hm]
      rfl
    · rw [Function.update_of_ne hp, h.queue p']
  last_self := h.last_self
  last := h.last
  known := fun p' m' hm' => h.known p' m' (mem_queue_pop hm')
  states := h.states
  bridge := h.bridge

/-- A node whose numbers of `s` are the same. -/
theorem setNode_other (h : Sim s net f) {x : ν} {n : Node ν}
    (hself : x = s → n.sendPeerSeqno = (net.node s).sendPeerSeqno ∧
      n.linkStateSeqno = (net.node s).linkStateSeqno)
    (hbridge : x ≠ s → n.bridgeTab s = (net.node x).bridgeTab s) :
    Sim s (net.setNode x n) f where
  sent := h.sent
  wire := h.wire
  queue := h.queue
  last_self := by
    show f.last s = (Function.update net.node x n s).sendPeerSeqno
    by_cases hx : s = x
    · subst hx
      rw [Function.update_self, (hself rfl).1, h.last_self]
    · rw [Function.update_of_ne hx, h.last_self]
  last := by
    intro y hy
    show f.last y = ((Function.update net.node x n y).bridgeTab s).peerRecvSeqno
    by_cases hx : y = x
    · subst hx
      rw [Function.update_self, hbridge hy, h.last y hy]
    · rw [Function.update_of_ne hx, h.last y hy]
  known := h.known
  states := by
    show _ = List.range' 1 (Function.update net.node x n s).linkStateSeqno
    by_cases hx : s = x
    · subst hx
      rw [Function.update_self, (hself rfl).2]
      exact h.states
    · rw [Function.update_of_ne hx]
      exact h.states
  bridge := by
    intro y hy
    show ((Function.update net.node x n y).bridgeTab s).linkStateSeqno = _ ∧
      ((Function.update net.node x n y).bridgeTab s).events = _
    by_cases hx : y = x
    · subst hx
      rw [Function.update_self, hbridge hy]
      exact h.bridge y hy
    · rw [Function.update_of_ne hx]
      exact h.bridge y hy

/-- `y` takes `m`, and its record of `s` becomes `b`. -/
theorem take (h : Sim s net f) {y : ν} (hy : y ≠ s) {b : Bridge} (hb : b.peerRecvSeqno = m.seqno)
    (hlog : b.linkStateSeqno = (f.log y ++ FifoFlood.floods [m.toFlood]).length ∧
      b.events =
        List.replicate (f.log y ++ FifoFlood.floods [m.toFlood]).length .updateAdjChange) :
    Sim s (net.setNode y
      { net.node y with bridgeTab := Function.update (net.node y).bridgeTab s b })
      (f.take y m.toFlood) where
  sent := h.sent
  wire := h.wire
  queue := h.queue
  last_self := by
    show Function.update f.last y m.seqno s = (Function.update net.node y _ s).sendPeerSeqno
    rw [Function.update_of_ne hy.symm, Function.update_of_ne hy.symm, h.last_self]
  last := by
    intro z hz
    show Function.update f.last y m.seqno z =
      ((Function.update net.node y _ z).bridgeTab s).peerRecvSeqno
    by_cases hzy : z = y
    · subst hzy
      rw [Function.update_self, Function.update_self]
      show _ = (Function.update (net.node z).bridgeTab s b s).peerRecvSeqno
      rw [Function.update_self, hb]
    · rw [Function.update_of_ne hzy, Function.update_of_ne hzy, h.last z hz]
  known := h.known
  states := by
    show _ = List.range' 1 (Function.update net.node y _ s).linkStateSeqno
    rw [Function.update_of_ne hy.symm]
    exact h.states
  bridge := by
    intro z hz
    show ((Function.update net.node y _ z).bridgeTab s).linkStateSeqno =
        (Function.update f.log y _ z).length ∧
      ((Function.update net.node y _ z).bridgeTab s).events =
        List.replicate (Function.update f.log y _ z).length .updateAdjChange
    by_cases hzy : z = y
    · subst hzy
      rw [Function.update_self, Function.update_self]
      show (Function.update (net.node z).bridgeTab s b s).linkStateSeqno = _ ∧
        (Function.update (net.node z).bridgeTab s b s).events = _
      rw [Function.update_self]
      exact hlog
    · rw [Function.update_of_ne hzy, Function.update_of_ne hzy]
      exact h.bridge z hz

/-- `s` issues `m`, and its own numbers become those of `n`. -/
theorem issue (h : Sim s net f) (hm : m.src = s) {n : Node ν} (hn : n.sendPeerSeqno = m.seqno)
    (hstates : (changes s (net.sent ++ [m])).map (·.kind.linkState) =
      List.range' 1 n.linkStateSeqno) :
    Sim s ({ net with sent := net.sent ++ [m] }.setNode s n)
      ((f.issue m.toFlood).take s m.toFlood) where
  sent := by
    show f.sent ++ [m.toFlood] = ofSrc s (net.sent ++ [m])
    rw [ofSrc_append, ofSrc_cons_self hm, h.sent]
    rfl
  wire := h.wire
  queue := h.queue
  last_self := by
    show Function.update f.last s m.seqno s = (Function.update net.node s n s).sendPeerSeqno
    rw [Function.update_self, Function.update_self, hn]
  last := by
    intro y hy
    show Function.update f.last s m.seqno y =
      ((Function.update net.node s n y).bridgeTab s).peerRecvSeqno
    rw [Function.update_of_ne hy, Function.update_of_ne hy, h.last y hy]
  known := fun p m' hm' => List.mem_append_left _ (h.known p m' hm')
  states := by
    show _ = List.range' 1 (Function.update net.node s n s).linkStateSeqno
    rw [Function.update_self]
    exact hstates
  bridge := by
    intro y hy
    show ((Function.update net.node s n y).bridgeTab s).linkStateSeqno =
        (Function.update f.log s _ y).length ∧
      ((Function.update net.node s n y).bridgeTab s).events =
        List.replicate (Function.update f.log s _ y).length .updateAdjChange
    rw [Function.update_of_ne hy, Function.update_of_ne hy]
    exact h.bridge y hy

/-- Another node issues `m`. -/
theorem issue_other (h : Sim s net f) (hm : m.src ≠ s) :
    Sim s { net with sent := net.sent ++ [m] } f where
  sent := by
    rw [ofSrc_append, ofSrc_cons_of_ne hm, h.sent]
    exact (List.append_nil _).symm
  wire := h.wire
  queue := h.queue
  last_self := h.last_self
  last := h.last
  known := fun p m' hm' => List.mem_append_left _ (h.known p m' hm')
  states := by
    have hnil : changes s [m] = [] := by
      rw [changes, List.filter_cons_of_neg (by simpa using hm)]
      rfl
    rw [changes_append, hnil, List.append_nil]
    exact h.states
  bridge := h.bridge

end Sim

/-! ## The steps -/

variable {T : Topology ν} {s : ν} {net : Net ν} {f : FifoFlood.Net ν (Port ν)}

/-- The changes a node took in a run, seen from the library. -/
def Follows (T : Topology ν) (s : ν) (net : Net ν) (f : FifoFlood.Net ν (Port ν)) : Prop :=
  FifoFlood.Reachable Port.node T.dst (T.links s) s f ∧ Sim s net f

theorem Follows.send (h : Follows T s net f) {n : Node ν} {kind : Kind} {outs : List (ℕ × ℕ)}
    (hn : n.sendPeerSeqno = (net.node s).sendPeerSeqno)
    (hstates : (changes s (net.sent ++ [⟨s, n.sendPeerSeqno + 1, kind⟩])).map (·.kind.linkState) =
      List.range' 1 n.linkStateSeqno)
    (hto : outs ⊆ T.floodPorts s s) (hall : kind.isAdjacency → T.floodPorts s s ⊆ outs) :
    ∃ f', Follows T s (net.send s n kind outs) f' := by
  obtain ⟨hf, hs⟩ := h
  obtain ⟨m, hm⟩ : ∃ m : Msg ν, m = ⟨s, n.sendPeerSeqno + 1, kind⟩ := ⟨_, rfl⟩
  have hsrc : m.src = s := by rw [hm]
  have hseq : m.seqno = n.sendPeerSeqno + 1 := by rw [hm]
  have hkind : m.kind = kind := by rw [hm]
  have hnew : f.last s < m.toFlood.seqno := by
    show f.last s < m.seqno
    rw [hs.last_self, hseq, hn]
    exact Nat.lt_succ_self _
  have hsends : FifoFlood.Sends Port.node T.dst (T.links s) s m.toFlood s s (portsOf s outs) := by
    constructor
    · intro e he
      obtain ⟨hnode, hin⟩ := mem_portsOf.1 he
      refine ⟨?_, hnode⟩
      show (e.tport, e.fd) ∈ T.floodPorts e.node s
      rw [hnode]
      exact hto hin
    · intro hflood e he hnode _ _
      refine mem_portsOf.2 ⟨hnode, hall (by rw [← hkind]; exact hflood) ?_⟩
      have he : (e.tport, e.fd) ∈ T.floodPorts e.node s := he
      rw [hnode] at he
      exact he
  have hstep := FifoFlood.Step.send f m.toFlood (portsOf s outs) hnew hsends
  rw [← hm] at hstates
  have hissue := hs.issue (n := { n with sendPeerSeqno := n.sendPeerSeqno + 1 }) hsrc hseq.symm
    hstates
  refine ⟨_, hf.tail hstep, ?_⟩
  have hpush := hissue.push hsrc (List.mem_append_right _ (List.mem_singleton_self m)) s outs
  rw [hm] at hpush ⊢
  exact hpush

theorem Follows.send_other (h : Follows T s net f) {x : ν} (hx : x ≠ s) {n : Node ν}
    (hn : n.bridgeTab = (net.node x).bridgeTab) (kind : Kind) (outs : List (ℕ × ℕ)) :
    Follows T s (net.send x n kind outs) f := by
  obtain ⟨hf, hs⟩ := h
  refine ⟨hf, ?_⟩
  have hissue : Sim s { net with sent := net.sent ++ [⟨x, n.sendPeerSeqno + 1, kind⟩] } f :=
    hs.issue_other hx
  have hset := hissue.setNode_other (x := x)
    (n := { n with sendPeerSeqno := n.sendPeerSeqno + 1 }) (fun heq => absurd heq hx)
    (fun _ => congrFun hn s)
  exact hset.push_other hx (List.mem_append_right _ (List.mem_singleton_self _)) x outs

/-- A message of another node. -/
theorem Follows.dispatch_other (h : Follows T s net f) {port : Port ν} {m : Msg ν}
    (hm : m.src ≠ s) (hsent : m ∈ net.sent) (outs : List (ℕ × ℕ)) :
    Follows T s (net.dispatch T port m outs) f := by
  obtain ⟨hf, hs⟩ := h
  have hset : Sim s (net.setNode port.node { net.node port.node with
      bridgeTab := Function.update (net.node port.node).bridgeTab m.src
        (((net.node port.node).bridgeTab m.src).recv m.seqno m.kind) }) f := by
    refine hs.setNode_other ?_ fun _ => Function.update_of_ne hm.symm _ _
    rintro rfl
    exact ⟨rfl, rfl⟩
  exact ⟨hf, hset.push_other hm hsent port.node (Net.forwards T port m outs)⟩

omit [DecidableEq ν] in
/-- The changes are numbered in the order of their numbers as messages. -/
theorem linkState_eq {l : List (Msg ν)} {n : ℕ} (hnodup : (l.map Msg.seqno).Nodup)
    (hstates : l.map (·.kind.linkState) = List.range' 1 n) {m : Msg ν} (hm : m ∈ l) {q : List ℕ}
    (hq : q ++ [m.seqno] <+: l.map Msg.seqno) : m.kind.linkState = q.length + 1 := by
  obtain ⟨i, hi, rfl⟩ := List.getElem_of_mem hm
  have hlen : q.length < (l.map Msg.seqno).length := by
    have := hq.length_le
    rw [List.length_append, List.length_singleton] at this
    omega
  have hat : (l.map Msg.seqno)[q.length] = l[i].seqno := by
    rw [← hq.getElem (by simp), List.getElem_append_right le_rfl]
    simp
  have hi' : i < (l.map Msg.seqno).length := by rwa [List.length_map]
  have hself : (l.map Msg.seqno)[i] = l[i].seqno := List.getElem_map ..
  have heq : q.length = i := (List.Nodup.getElem_inj_iff hnodup).1 (hat.trans hself.symm)
  have hstate : (l.map (·.kind.linkState))[i]? = some (l[i].kind.linkState) := by
    rw [List.getElem?_map, List.getElem?_eq_getElem hi]
    rfl
  have hn : i < n := by
    rw [← List.length_map (·.kind.linkState), hstates, List.length_range'] at hi
    exact hi
  rw [hstates, List.getElem?_range' hn] at hstate
  rw [← Option.some.inj hstate, heq]
  omega

/-- A node that takes a message of `s`: if it is a change it is the next one. -/
theorem Follows.recv (h : Follows T s net f) {y : ν} (hy : y ≠ s) {m : Msg ν}
    (hm : m ∈ changes s net.sent ∨ m.kind.isAdjacency = false)
    (hpre : f.log y ++ FifoFlood.floods [m.toFlood] <+: FifoFlood.floods f.sent) :
    (((net.node y).bridgeTab s).recv m.seqno m.kind).linkStateSeqno =
        (f.log y ++ FifoFlood.floods [m.toFlood]).length ∧
      (((net.node y).bridgeTab s).recv m.seqno m.kind).events =
        List.replicate (f.log y ++ FifoFlood.floods [m.toFlood]).length .updateAdjChange := by
  obtain ⟨hf, hs⟩ := h
  obtain ⟨hlink, hevents⟩ := hs.bridge y hy
  cases hk : m.kind with
  | adjacency linkState =>
    have hone : FifoFlood.floods [m.toFlood] = [m.seqno] := by
      simp [FifoFlood.floods, Msg.toFlood, Kind.isAdjacency, hk]
    rw [hone, List.length_append, List.length_singleton]
    have hin : m ∈ changes s net.sent := by
      rcases hm with hm | hm
      · exact hm
      · rw [hk] at hm
        exact absurd hm (by simp [Kind.isAdjacency])
    rw [hone, hs.sent, floods_ofSrc] at hpre
    have hnodup : ((changes s net.sent).map Msg.seqno).Nodup := by
      rw [← floods_ofSrc, ← hs.sent]
      exact hf.inv.floods_sorted.imp fun hlt => Nat.ne_of_lt hlt
    have hnext := linkState_eq hnodup hs.states hin hpre
    rw [hk] at hnext
    have hstate : linkState = ((net.node y).bridgeTab s).linkStateSeqno + 1 := by
      rw [hlink]
      exact hnext
    rw [Bridge.recv, Bridge.recvAdjacencyChange, if_neg (not_not.2 hstate)]
    refine ⟨by rw [← hlink]; exact hstate, ?_⟩
    rw [List.replicate_succ', ← hevents]
  | bloomFilter | peerAdd | peerDel =>
    have hnone : FifoFlood.floods [m.toFlood] = [] := by
      simp [FifoFlood.floods, Msg.toFlood, Kind.isAdjacency, hk]
    rw [hnone, List.append_nil]
    exact ⟨hlink, hevents⟩

theorem Follows.onMsg (hT : T.Paired) (h : Follows T s net f) {p : Port ν} {m : Msg ν}
    {t : List (Msg ν)} (hq : net.queue p = m :: t) (hm : m.src = s) {outs : List (ℕ × ℕ)}
    (hto : outs ⊆ T.floodPorts (T.far p).node s) :
    ∃ f', Follows T s ((net.pop p).onMsg T (T.far p) m outs) f' := by
  obtain ⟨hf, hs⟩ := h
  have hfq : f.queue p = m.toFlood :: ofSrc s t := by
    rw [hs.queue p, hq, ofSrc_cons_self hm]
  have hhead : (f.queue p).head? = some m.toFlood := by rw [hfq]; rfl
  have hwire : m.toFlood ∈ f.wire p := by
    refine (hf.inv.suffix p).subset ?_
    rw [hfq]
    exact List.mem_cons_self ..
  have hsent : m ∈ net.sent := hs.known p m (by rw [hq]; exact List.mem_cons_self ..)
  obtain ⟨hlinks, hin, -⟩ := hf.inv.sent p m.toFlood hwire
  have hpop := hs.pop hq hm
  have hdrop : m.seqno ≤ f.last (T.dst p) → ∃ f', Follows T s (net.pop p) f' := fun hold =>
    ⟨_, hf.tail (FifoFlood.Step.drop f p m.toFlood hhead hold), hpop⟩
  rw [Net.onMsg]
  split_ifs with hmine hnew
  · -- what comes back to its source
    refine hdrop ?_
    rw [show T.dst p = s from hmine.symm.trans hm]
    exact hf.inv.sent_le _ hin
  · have hy : (T.far p).node ≠ s := fun heq => hmine (hm.trans heq.symm)
    rw [hm] at hnew
    have hlt : f.last (T.dst p) < m.toFlood.seqno := by
      show f.last (T.far p).node < m.seqno
      rw [hs.last _ hy]
      exact hnew
    obtain ⟨y', hy'⟩ := T.connects_of_mem hlinks
    obtain ⟨rte, hrte, -, hfd⟩ := hT.far_connects p y' hy'
    have hfar := hT.far_far p y' hy'
    have hpub : bcastPub (T.transportTab (T.far p).node) s (T.far p).tport (T.far p).fd =
        (T.floodPorts (T.far p).node s).filter (· ≠ ((T.far p).tport, (T.far p).fd)) := by
      rw [bcastPub_eq hrte (List.mem_map.2 ⟨_, hfd, rfl⟩), Topology.floodPorts, if_neg hy]
    have hsends : FifoFlood.Sends Port.node T.dst (T.links s) s m.toFlood (T.dst p) p.node
        (portsOf (T.far p).node (Net.forwards T (T.far p) m outs)) := by
      constructor
      · intro e he
        obtain ⟨hnode, hin⟩ := mem_portsOf.1 he
        refine ⟨?_, hnode⟩
        show (e.tport, e.fd) ∈ T.floodPorts e.node s
        rw [hnode]
        rw [Net.forwards, hm, hpub] at hin
        cases hk : m.kind with
        | adjacency => rw [hk] at hin; exact (List.mem_filter.1 hin).1
        | bloomFilter => rw [hk] at hin; exact hto hin
        | peerAdd => rw [hk] at hin; exact absurd hin List.not_mem_nil
        | peerDel => rw [hk] at hin; exact absurd hin List.not_mem_nil
      · intro hflood e he hnode _ hsender
        refine mem_portsOf.2 ⟨hnode, ?_⟩
        have he : (e.tport, e.fd) ∈ T.floodPorts e.node s := he
        rw [hnode] at he
        have hne : (e.tport, e.fd) ≠ ((T.far p).tport, (T.far p).fd) := by
          intro heq
          obtain ⟨ht, hfd⟩ := Prod.mk.inj heq
          refine hsender ?_
          have heq : e = T.far p := by
            cases e
            exact congr (congr (congrArg Port.mk hnode) ht) hfd
          show (T.far e).node = p.node
          rw [heq, hfar]
        rw [Net.forwards, hm, hpub]
        cases hk : m.kind with
        | adjacency => exact List.mem_filter.2 ⟨he, decide_eq_true hne⟩
        | bloomFilter | peerAdd | peerDel =>
          rw [Msg.toFlood, hk] at hflood
          exact absurd hflood (by simp [Kind.isAdjacency])
    have hstep := FifoFlood.Step.accept f p m.toFlood _ hhead hlt hsends
    have hreach := hf.tail hstep
    have hpre : f.log (T.far p).node ++ FifoFlood.floods [m.toFlood] <+:
        FifoFlood.floods f.sent := by
      have hlog := FifoFlood.Reachable.log_initial hreach (T.far p).node
      have hself : Function.update f.log (T.dst p)
          (f.log (T.dst p) ++ FifoFlood.floods [m.toFlood]) (T.far p).node =
          f.log (T.far p).node ++ FifoFlood.floods [m.toFlood] := Function.update_self ..
      rw [← hself]
      exact hlog
    have hkind : m ∈ changes s net.sent ∨ m.kind.isAdjacency = false := by
      cases hk : m.kind.isAdjacency with
      | false => exact .inr rfl
      | true =>
        refine .inl (List.mem_filter.2 ⟨List.mem_filter.2 ⟨hsent, ?_⟩, hk⟩)
        exact decide_eq_true hm
    have hrecv := Follows.recv ⟨hf, hs⟩ hy hkind hpre
    have hseq : (((net.node (T.far p).node).bridgeTab s).recv m.seqno m.kind).peerRecvSeqno =
        m.seqno := by
      cases m.kind with
      | adjacency =>
        rw [Bridge.recv, Bridge.recvAdjacencyChange]
        split_ifs <;> rfl
      | bloomFilter | peerAdd | peerDel => rfl
    have htake := hpop.take hy hseq hrecv
    refine ⟨_, hreach, ?_⟩
    have hpush := htake.push hm hsent (T.far p).node (Net.forwards T (T.far p) m outs)
    rw [Net.dispatch, hm]
    exact hpush
  · rw [hm] at hnew
    refine hdrop ?_
    have hy : (T.far p).node ≠ s := fun heq => hmine (hm.trans heq.symm)
    show m.seqno ≤ f.last (T.far p).node
    rw [hs.last _ hy]
    exact Nat.not_lt.1 hnew

theorem Follows.step (hT : T.Paired) (h : Follows T s net f) {e : Event ν}
    (he : e.Follows T net) : ∃ f', Follows T s (net.step T e) f' := by
  cases e with
  | change x =>
    by_cases hx : x = s
    · subst hx
      refine h.send rfl ?_ ?_ ?_
      · have hone : ∀ (k l : ℕ), changes x [⟨x, k, .adjacency l⟩] = [⟨x, k, .adjacency l⟩] := by
          intro k l
          simp [changes, Kind.isAdjacency]
        rw [changes_append, hone, List.map_append, h.2.states, List.range'_concat]
        simp [Kind.linkState, Nat.add_comm]
      · rw [Topology.floodPorts, if_pos rfl]
        exact List.Subset.refl _
      · rw [Topology.floodPorts, if_pos rfl]
        exact fun _ => List.Subset.refl _
    · exact ⟨f, h.send_other hx
        (n := { net.node x with linkStateSeqno := (net.node x).linkStateSeqno + 1 }) rfl _ _⟩
  | other x kind outs =>
    by_cases hx : x = s
    · subst hx
      obtain ⟨hkind, hto⟩ := he
      refine h.send rfl ?_ hto fun hadj => absurd hadj (by rw [hkind]; exact Bool.false_ne_true)
      have hnone : ∀ k : ℕ, changes x [⟨x, k, kind⟩] = [] := by
        intro k
        simp [changes, hkind]
      rw [changes_append, hnone, List.append_nil]
      exact h.2.states
    · exact ⟨f, h.send_other hx rfl _ _⟩
  | recv p outs =>
    rw [Net.step]
    cases hq : net.queue p with
    | nil => exact ⟨f, h⟩
    | cons m t =>
      dsimp only
      have hto := he m (by rw [hq]; rfl)
      by_cases hm : m.src = s
      · rw [hm] at hto
        exact h.onMsg hT hq hm hto
      · have hpop : Follows T s (net.pop p) f := ⟨h.1, h.2.pop_other hq hm⟩
        have hsent : m ∈ net.sent := h.2.known p m (by rw [hq]; exact List.mem_cons_self ..)
        refine ⟨f, ?_⟩
        rw [Net.onMsg]
        split_ifs
        · exact hpop
        · exact hpop.dispatch_other hm hsent outs
        · exact hpop

theorem Run.follows (hT : T.Paired) (h : Run T net) (s : ν) : ∃ f, Follows T s net f := by
  induction h with
  | init => exact ⟨_, Relation.ReflTransGen.refl, Sim.init⟩
  | step _ e he ih =>
    obtain ⟨f, hf⟩ := ih
    exact hf.step hT he

/-! ## The flood -/

/-- `y` is connected to `x`, directly or over other nodes. -/
def Topology.Reaches (T : Topology ν) : ν → ν → Prop :=
  Relation.ReflTransGen fun x y => ∃ p, p.node = x ∧ T.Connects p y

theorem Topology.Reaches.links (hT : T.Paired) {y : ν} (h : T.Reaches s y) :
    Relation.ReflTransGen (fun v w => ∃ e ∈ T.links s, e.node = v ∧ T.dst e = w) s y := by
  induction h with
  | refl => exact .refl
  | @tail x z _ hp ih =>
    obtain ⟨p, rfl, hp⟩ := hp
    by_cases hz : z = s
    · rw [hz]
    · obtain ⟨k, g, hmem, hc⟩ := Topology.floodPorts_covers hp hz
      exact ih.tail ⟨⟨p.node, k, g⟩, hmem, rfl, hT.far_node _ z hc⟩

/-- In any order of deliveries, a node takes the changes of another one in the order they
were made and with none missing, so that it never asks for them again, no message goes
over a connection twice, and with nothing on the way all that are connected have them all. -/
theorem changes_flood_in_order (hT : T.Paired) (h : Run T net) {y : ν} (hy : y ≠ s) :
    (∀ c ∈ ((net.node y).bridgeTab s).events, c = .updateAdjChange) ∧
      ((net.node y).bridgeTab s).events.length = ((net.node y).bridgeTab s).linkStateSeqno ∧
      ((net.node y).bridgeTab s).linkStateSeqno ≤ (net.node s).linkStateSeqno ∧
      (∀ p, ((net.wire p).filter (·.src = s)).Pairwise fun m m' => m.seqno < m'.seqno) ∧
      ((∀ p, net.queue p = []) → T.Reaches s y →
        ((net.node y).bridgeTab s).linkStateSeqno = (net.node s).linkStateSeqno) := by
  obtain ⟨f, hf, hs⟩ := h.follows hT s
  obtain ⟨hlink, hevents⟩ := hs.bridge y hy
  have hcount : (FifoFlood.floods f.sent).length = (net.node s).linkStateSeqno := by
    rw [hs.sent, floods_ofSrc, List.length_map, ← List.length_map (·.kind.linkState), hs.states,
      List.length_range']
  refine ⟨?_, ?_, ?_, ?_, ?_⟩
  · intro c hc
    rw [hevents] at hc
    exact List.eq_of_mem_replicate hc
  · rw [hevents, hlink, List.length_replicate]
  · rw [hlink, ← hcount]
    exact (hf.log_initial y).length_le
  · intro p
    have hsorted := hf.wire_sorted p
    rw [hs.wire p, ofSrc] at hsorted
    have hpair := List.pairwise_map.1 hsorted
    exact hpair
  · intro hquiet hreach
    have hq : ∀ e ∈ T.links s, f.queue e = [] := by
      intro e _
      rw [hs.queue e, hquiet e]
      rfl
    rw [hlink, hf.log_eq hq (hreach.links hT), hcount]

/-- Three nodes, each with a transport to either of the others. -/
def triangle : Topology (Fin 3) where
  transportTab := fun x => [⟨false, [⟨1, x + 1⟩]⟩, ⟨false, [⟨2, x + 2⟩]⟩]
  far := fun p => if p.fd = 1 then ⟨p.node + 1, 1, 2⟩ else ⟨p.node + 2, 0, 1⟩

theorem triangle_connects {p : Port (Fin 3)} {y : Fin 3} (h : triangle.Connects p y) :
    p = ⟨p.node, 0, 1⟩ ∧ y = p.node + 1 ∨ p = ⟨p.node, 1, 2⟩ ∧ y = p.node + 2 := by
  obtain ⟨x, i, fd⟩ := p
  obtain ⟨rte, hrte, -, hc⟩ := h
  match i with
  | 0 =>
    obtain rfl := Option.some.inj hrte
    obtain ⟨rfl, rfl⟩ := Conn.mk.inj (List.mem_singleton.1 hc)
    exact .inl ⟨rfl, rfl⟩
  | 1 =>
    obtain rfl := Option.some.inj hrte
    obtain ⟨rfl, rfl⟩ := Conn.mk.inj (List.mem_singleton.1 hc)
    exact .inr ⟨rfl, rfl⟩
  | _ + 2 => exact absurd hrte (by simp [triangle])

theorem triangle_paired : triangle.Paired := by
  have hback : ∀ x : Fin 3, x + 1 + 2 = x ∧ x + 2 + 1 = x := by decide
  have hleft : ∀ x, triangle.Connects ⟨x, 0, 1⟩ (x + 1) := fun _ =>
    ⟨_, rfl, rfl, List.mem_singleton_self _⟩
  have hright : ∀ x, triangle.Connects ⟨x, 1, 2⟩ (x + 2) := fun _ =>
    ⟨_, rfl, rfl, List.mem_singleton_self _⟩
  constructor
  · intro p y h
    rcases triangle_connects h with ⟨hp, rfl⟩ | ⟨hp, rfl⟩ <;> rw [hp] <;> rfl
  · intro p y h
    rcases triangle_connects h with ⟨hp, rfl⟩ | ⟨hp, rfl⟩
    · have hc := hright (p.node + 1)
      rw [(hback p.node).1] at hc
      rw [hp]
      exact hc
    · have hc := hleft (p.node + 2)
      rw [(hback p.node).2] at hc
      rw [hp]
      exact hc
  · intro p y h
    rcases triangle_connects h with ⟨hp, rfl⟩ | ⟨hp, rfl⟩
    · rw [hp]
      exact congrArg (fun x => (⟨x, 0, 1⟩ : Port (Fin 3))) (hback p.node).1
    · rw [hp]
      exact congrArg (fun x => (⟨x, 1, 2⟩ : Port (Fin 3))) (hback p.node).2

theorem triangle_single : triangle.Single := by
  have hne : ∀ x : Fin 3, x + 1 ≠ x + 2 := by decide
  intro p q y hnode hp hq
  rcases triangle_connects hp with ⟨hp', rfl⟩ | ⟨hp', rfl⟩ <;>
    obtain ⟨hq', hy⟩ | ⟨hq', hy⟩ := triangle_connects hq
  · rw [hp', hq', hnode]
  · exact absurd (hnode ▸ hy) (hne _)
  · exact absurd (hnode ▸ hy) (hne _).symm
  · rw [hp', hq', hnode]

/-- Node 0 tells its peers of a new one and makes a change, which they pass on to each
other. -/
def triangleTold : Net (Fin 3) :=
  [Event.other 0 .peerAdd [(0, 1), (1, 2)], .change 0, .recv ⟨0, 0, 1⟩ [], .recv ⟨0, 1, 2⟩ [],
    .recv ⟨0, 0, 1⟩ [], .recv ⟨0, 1, 2⟩ [], .recv ⟨1, 0, 1⟩ [], .recv ⟨2, 1, 2⟩ []].foldl
    (Net.step triangle) Net.init

/-- Then node 1 sends a bloom, that comes to node 0 over node 2. -/
def triangleRun : Net (Fin 3) :=
  [Event.other 1 .bloomFilter [(0, 1)], .recv ⟨1, 0, 1⟩ [(0, 1)], .recv ⟨2, 0, 1⟩ []].foldl
    (Net.step triangle) triangleTold

theorem triangleRun_run : Run triangle triangleRun := by
  have hleft : ∀ {x s : Fin 3}, x + 1 ≠ s → ∃ y, y ≠ s ∧ triangle.Connects ⟨x, 0, 1⟩ y :=
    fun h => ⟨_, h, _, rfl, rfl, List.mem_singleton_self _⟩
  have hright : ∀ {x s : Fin 3}, x + 2 ≠ s → ∃ y, y ≠ s ∧ triangle.Connects ⟨x, 1, 2⟩ y :=
    fun h => ⟨_, h, _, rfl, rfl, List.mem_singleton_self _⟩
  have hrecv : ∀ {net : Net (Fin 3)} (p : Port (Fin 3)), Run triangle net →
      Run triangle (net.step triangle (.recv p [])) :=
    fun p h => h.step (.recv p []) fun _ _ => List.nil_subset _
  have hadd := Run.step (T := triangle) .init (.other 0 .peerAdd [(0, 1), (1, 2)])
    ⟨rfl, Topology.floodPorts_of_single triangle_single (List.forall_mem_cons.2
      ⟨hleft (by decide), List.forall_mem_singleton.2 (hright (by decide))⟩)⟩
  have htold : Run triangle triangleTold :=
    hrecv ⟨2, 1, 2⟩ (hrecv ⟨1, 0, 1⟩ (hrecv ⟨0, 1, 2⟩ (hrecv ⟨0, 0, 1⟩
      (hrecv ⟨0, 1, 2⟩ (hrecv ⟨0, 0, 1⟩ (hadd.step (.change 0) trivial))))))
  have hbloom := htold.step (.other 1 .bloomFilter [(0, 1)])
    ⟨rfl, Topology.floodPorts_of_single triangle_single
      (List.forall_mem_singleton.2 (hleft (by decide)))⟩
  have hfirst : (((triangleTold.step triangle (.other 1 .bloomFilter [(0, 1)])).queue
      ⟨1, 0, 1⟩).head?).map Msg.src = some 1 := by decide +kernel
  refine hrecv ⟨2, 0, 1⟩ (hbloom.step (.recv ⟨1, 0, 1⟩ [(0, 1)]) fun m hm => ?_)
  rw [Option.mem_def.1 hm] at hfirst
  rw [Option.some.inj hfirst]
  exact Topology.floodPorts_of_single triangle_single
    (List.forall_mem_singleton.2 (hleft (by decide)))

theorem triangleRun_flooded :
    (∀ c ∈ ((triangleRun.node 1).bridgeTab 0).events, c = .updateAdjChange) ∧
      ((triangleRun.node 1).bridgeTab 0).linkStateSeqno = (triangleRun.node 0).linkStateSeqno ∧
      (triangleRun.node 0).linkStateSeqno = 1 ∧
      ((triangleRun.node 0).bridgeTab 1).peerRecvSeqno = 1 := by
  have hflood := changes_flood_in_order triangle_paired triangleRun_run
    (show (1 : Fin 3) ≠ 0 by decide)
  exact ⟨hflood.1, by decide +kernel, by decide +kernel, by decide +kernel⟩

end ChangeFlood

end Raims
