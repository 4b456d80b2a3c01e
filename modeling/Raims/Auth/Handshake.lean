import Raims.Auth.InboxAuth
import Raims.Lib.Run

/-!
# The handshake of the nodes

Any number of nodes send heartbeats, on any transports, and challenge each other. With
symbolic cryptography a challenge that verifies was made by the peer for this node, over
a nonce that this node gave out.
-/

namespace Raims

/-! ## Heartbeats -/

/-- A message `_X.HELLO` or `_X.HB`, or `_X.BYE`, which has no `cnonce`. -/
structure Heartbeat where
  src : ℕ
  time : ℕ
  seqno : ℕ
  cnonce : ℕ
  start : ℕ
  bye : Bool
deriving DecidableEq

namespace HbHistory

variable {ν : Type}

/-- `push_hb_time`. -/
def push (rte : HbHistory ν) (time : ℕ) (cnonce : ν) : HbHistory ν :=
  ⟨⟨time, rte.hb.seqno + 1, cnonce⟩, rte.hb :: rte.auth.take 2⟩

end HbHistory

/-- What the transport and the clock say in `on_heartbeat`. -/
structure HbArgs where
  /-- none of the tests of the route returns before the heartbeat is recorded -/
  routed : Bool
  /-- `rte.oldest_uid == 0` -/
  oldestPeer : Bool
  isMcast : Bool
  curTime : ℕ
deriving DecidableEq

namespace AuthBridge

variable {σ β δ : Type} {κ : Type} (c : AuthCrypt ℕ κ ℕ σ δ β) (db : AuthDB ℕ κ ℕ δ)
  (n : AuthBridge ℕ κ ℕ δ)

/-- `do_challenge`. -/
def doChallenge (hb : Heartbeat) (args : HbArgs) : Bool :=
  (db.startTime < hb.start && args.oldestPeer) || (args.oldestPeer && args.isMcast) ||
    (0 < n.hb.seqno && n.hb.seqno + 1 = hb.seqno && hb.start + 1000000000 < args.curTime)

/-- `on_heartbeat`, for a heartbeat with a public key that is verified: the bridge and
the challenge that is sent. -/
def onHeartbeat (hb : Heartbeat) (pubkey : ℕ) (args : HbArgs) (cnonce : ℕ) :
    AuthBridge ℕ κ ℕ δ × Option (AuthMsg ℕ κ ℕ β) :=
  if args.routed = false then (n, none)
  else if n.hb.seqno < hb.seqno then
    let n' := { n with hb := ⟨hb.time, hb.seqno, hb.cnonce⟩, hbPubkey := pubkey }
    if n.authenticated || n.challengeState then (n', none)
    else if n.doChallenge db hb args then
      let n' := { n' with auth0 := ⟨hb.time, hb.seqno, hb.cnonce⟩ }.nextAuth args.curTime cnonce
      ({ n' with challengeState := true, challengeCount := n'.challengeCount + 1 },
        some (n'.sendChallenge c db AuthStage.fromHello))
    else (n', none)
  else (n, none)

/-- `remove_authenticated`. -/
def removeAuthenticated (byeBye : Bool) : AuthBridge ℕ κ ℕ δ :=
  { n with
    authenticated := false
    challengeState := false
    challengeCount := if n.challengeState then 0 else n.challengeCount
    hb := { n.hb with seqno := 0 }
    byeBye := byeBye }

/-- `on_bye`, for a message that is verified. -/
def onBye (hb : Heartbeat) : AuthBridge ℕ κ ℕ δ :=
  if n.authenticated = false then n
  else if n.hb.seqno < hb.seqno ∧ n.hb.time ≤ hb.time then
    { n with hb := { n.hb with time := hb.time, seqno := hb.seqno } }.removeAuthenticated true
  else n

/-- A challenge that timed out, in `check_user_timeout`. -/
def challengeTimeout : AuthBridge ℕ κ ℕ δ :=
  { n with
    challengeState := false
    challengeCount := if n.authenticated then 0 else n.challengeCount }

end AuthBridge

/-! ## What an operation sends -/

namespace AuthBridge

section

variable {κ σ δ β : Type} {c : AuthCrypt ℕ κ ℕ σ δ β} {db : AuthDB ℕ κ ℕ δ}
  {rte : HbHistory ℕ} {n n' : AuthBridge ℕ κ ℕ δ} {m : AuthMsg ℕ κ ℕ β}

/-- The bridge with which a challenge is sent: it is the same peer, and the nonce is new. -/
structure Sends (n n' : AuthBridge ℕ κ ℕ δ) (cnonce : ℕ) : Prop where
  nonce : n'.nonce = n.nonce
  cnonce : n'.auth1.cnonce = cnonce

/-- What an operation does to the nonces of a bridge. A challenge of the first stage is over
the last heartbeat, one of the second stage over the nonce `peer` that the peer gave. -/
structure Operated (c : AuthCrypt ℕ κ ℕ σ δ β) (db : AuthDB ℕ κ ℕ δ) (peer : Option ℕ)
    (n : AuthBridge ℕ κ ℕ δ) (r : AuthBridge ℕ κ ℕ δ × Option (AuthMsg ℕ κ ℕ β)) (cnonce : ℕ) :
    Prop where
  nonce : r.1.nonce = n.nonce
  kept : r.2 = none → r.1.auth1 = n.auth1 ∨ r.1.auth1.cnonce = cnonce
  sends : ∀ msg ∈ r.2, r.1.auth1.cnonce = cnonce ∧ ∃ n', Sends n n' cnonce ∧
    ((msg = n'.sendChallenge c db AuthStage.fromHello ∧ n'.auth0.cnonce = r.1.hb.cnonce) ∨
      (msg = n'.sendChallenge c db AuthStage.fromHandshake ∧ n'.auth0.cnonce ∈ peer))

theorem Operated.silent {peer : Option ℕ} {cnonce : ℕ} (hnonce : n'.nonce = n.nonce)
    (hauth : n'.auth1 = n.auth1) : Operated c db peer n (n', none) cnonce :=
  ⟨hnonce, fun _ => .inl hauth, fun _ h => absurd h (Option.not_mem_none _)⟩

theorem onHeartbeat_operated (c : AuthCrypt ℕ κ ℕ σ δ β) (db : AuthDB ℕ κ ℕ δ)
    (n : AuthBridge ℕ κ ℕ δ) (hb : Heartbeat) (pubkey : ℕ) (args : HbArgs) (cnonce : ℕ) :
    Operated c db none n (n.onHeartbeat c db hb pubkey args cnonce) cnonce := by
  rw [onHeartbeat]
  split
  · exact .silent rfl rfl
  · split
    · dsimp only
      split
      · exact .silent rfl rfl
      · split
        · refine ⟨rfl, fun h => absurd h (Option.some_ne_none _), fun msg hmsg => ⟨rfl, _, ?_,
            .inl ⟨(Option.some.inj hmsg).symm, ?_⟩⟩⟩
          · exact ⟨rfl, rfl⟩
          · rfl
        · exact .silent rfl rfl
    · exact .silent rfl rfl

theorem removeAuthenticated_operated (byeBye : Bool) (cnonce : ℕ) :
    Operated c db none n (n.removeAuthenticated byeBye, none) cnonce := .silent rfl rfl

theorem onBye_operated (hb : Heartbeat) (cnonce : ℕ) :
    Operated c db none n (n.onBye hb, none) cnonce := by
  rw [onBye]
  split
  · exact .silent rfl rfl
  · split
    · exact .silent rfl rfl
    · exact .silent rfl rfl

/-- The fields that a challenge does not write. -/
structure SamePeer (n n' : AuthBridge ℕ κ ℕ δ) : Prop where
  nonce : n'.nonce = n.nonce
  hb : n'.hb = n.hb
  auth1 : n'.auth1 = n.auth1

theorem SamePeer.trans {n'' : AuthBridge ℕ κ ℕ δ} (h : SamePeer n n') (h' : SamePeer n' n'') :
    SamePeer n n'' :=
  ⟨h'.nonce.trans h.nonce, h'.hb.trans h.hb, h'.auth1.trans h.auth1⟩

theorem samePeer_recvChallenge (c : AuthCrypt ℕ κ ℕ σ δ β) (db : AuthDB ℕ κ ℕ δ)
    (m : AuthMsg ℕ κ ℕ β) (n : AuthBridge ℕ κ ℕ δ) (f : AuthFields ℕ ℕ) (stage : ℕ) :
    SamePeer n (n.recvChallenge c db m f stage).1 := by
  simp only [recvChallenge]
  split
  · exact ⟨rfl, rfl, rfl⟩
  · split
    · exact ⟨rfl, rfl, rfl⟩
    · exact ⟨rfl, rfl, rfl⟩

theorem samePeer_addAuthenticated (n : AuthBridge ℕ κ ℕ δ) : SamePeer n n.addAuthenticated := by
  rw [addAuthenticated]
  split
  · exact ⟨rfl, rfl, rfl⟩
  · exact ⟨rfl, rfl, rfl⟩

theorem challenge_operated (c : AuthCrypt ℕ κ ℕ σ δ β) (db : AuthDB ℕ κ ℕ δ)
    (m : AuthMsg ℕ κ ℕ β) (hsame : SamePeer n n') (f : AuthFields ℕ ℕ) (stage now cnonce : ℕ) :
    Operated c db (some f.cnonce) n (n'.challenge c db m f stage now cnonce) cnonce ∧
      (n'.challenge c db m f stage now cnonce).1.hb = n.hb ∧
      ∀ msg ∈ (n'.challenge c db m f stage now cnonce).2,
        stage = AuthStage.fromHello ∧ msg.stage = some AuthStage.fromHandshake := by
  have hrec := hsame.trans (samePeer_recvChallenge c db m n' f stage)
  simp only [challenge]
  split
  · generalize (n'.recvChallenge c db m f stage).1 = n₁ at hrec
    have hadd : SamePeer n (if n₁.authenticated then n₁ else n₁.addAuthenticated) := by
      split
      · exact hrec
      · exact hrec.trans (samePeer_addAuthenticated n₁)
    simp only [challenged]
    generalize (if n₁.authenticated then n₁ else n₁.addAuthenticated) = n₂ at hadd
    split
    · rename_i hstage
      refine ⟨⟨?_, fun h => absurd h (Option.some_ne_none _), fun msg hmsg => ⟨?_, ?_⟩⟩, ?_,
        fun msg hmsg => ?_⟩
      · dsimp only
        split
        · exact hadd.nonce
        · exact hadd.nonce
      · dsimp only
        split
        · rfl
        · rfl
      · refine ⟨_, ?_, .inr ⟨(Option.some.inj hmsg).symm, ?_⟩⟩
        · exact ⟨hadd.nonce, rfl⟩
        · rfl
      · dsimp only
        split
        · exact hadd.hb
        · exact hadd.hb
      · cases hmsg
        exact ⟨hstage, rfl⟩
    · exact ⟨⟨hadd.nonce, fun _ => .inr rfl, fun _ h => absurd h (Option.not_mem_none _)⟩, hadd.hb,
        fun _ h => absurd h (Option.not_mem_none _)⟩
  · exact ⟨.silent hrec.nonce hrec.auth1, hrec.hb, fun _ h => absurd h (Option.not_mem_none _)⟩

/-- An auth message: a challenge of the first stage is sent if a handshake starts over. -/
theorem onMsg_operated (c : AuthCrypt ℕ κ ℕ σ δ β) (db : AuthDB ℕ κ ℕ δ) (rte : HbHistory ℕ)
    (n : AuthBridge ℕ κ ℕ δ) (m : AuthMsg ℕ κ ℕ β) (now cnonce : ℕ) :
    Operated c db (m.fields.map AuthFields.cnonce) n (n.onMsg c db rte m now cnonce) cnonce ∧
      (n.onMsg c db rte m now cnonce).1.hb = n.hb ∧
      ∀ msg ∈ (n.onMsg c db rte m now cnonce).2,
        (m.stage = some 2 ∧ msg.stage = some 1) ∨ (m.stage = some 1 ∧ msg.stage = some 2) := by
  have hquiet {auth0 : StageAuth ℕ} {peer : Option ℕ} {n' : AuthBridge ℕ κ ℕ δ}
      (h : n' = { n with recvSeqno := max n.recvSeqno m.seqno, auth0 := auth0 }) :
      Operated c db peer n (n', (none : Option (AuthMsg ℕ κ ℕ β))) cnonce ∧ n'.hb = n.hb ∧
        ∀ msg ∈ (none : Option (AuthMsg ℕ κ ℕ β)),
          (m.stage = some 2 ∧ msg.stage = some 1) ∨ (m.stage = some 1 ∧ msg.stage = some 2) := by
    subst h
    exact ⟨.silent rfl rfl, rfl, fun _ h => absurd h (Option.not_mem_none _)⟩
  have hsame (auth0 : StageAuth ℕ) : SamePeer n
      { n with recvSeqno := max n.recvSeqno m.seqno, auth0 := auth0 } := ⟨rfl, rfl, rfl⟩
  simp only [onMsg, onInboxAuth]
  split
  · rename_i f hstage hfields
    rw [hfields, Option.map_some]
    split
    · obtain ⟨hop, hhb, hsends⟩ := challenge_operated c db m
        (hsame (StageAuth.copyFromHb c.zeroNonce f rte).1) f AuthStage.fromHello now cnonce
      exact ⟨hop, hhb, fun msg hmsg => .inr ⟨hstage, (hsends msg hmsg).2⟩⟩
    · exact hquiet rfl
  · rename_i f hstage hfields
    rw [hfields, Option.map_some]
    split
    · rename_i auth0 hauth
      obtain ⟨hop, hhb, hsends⟩ := challenge_operated c db m
        (hsame auth0) f AuthStage.fromHandshake now cnonce
      exact ⟨hop, hhb, fun msg hmsg => absurd (hsends msg hmsg).1 (by decide)⟩
    · split
      · refine ⟨⟨rfl, fun h => absurd h (Option.some_ne_none _), fun msg hmsg => ⟨rfl, _, ?_,
          .inl ⟨(Option.some.inj hmsg).symm, ?_⟩⟩⟩, rfl, fun msg hmsg => ?_⟩
        · exact ⟨rfl, rfl⟩
        · rfl
        · cases hmsg
          exact .inl ⟨hstage, rfl⟩
      · exact hquiet rfl
  · exact hquiet rfl

end

end AuthBridge

/-! ## The network -/

/-- A challenge on its way. -/
structure Challenge where
  src : ℕ
  dst : ℕ
  msg : AuthMsg ℕ SymKey ℕ SymBody

namespace Challenge

def cnonce (x : Challenge) : ℕ := x.msg.fields.elim 0 AuthFields.cnonce

end Challenge

/-- The start times of the nodes, and which have the key of the service. -/
structure NodeConfig where
  start : ℕ → ℕ
  hasSvc : ℕ → Bool

/-- The node, its transports and its peers, for all nodes, and all that was sent. Every
nonce below `fresh` is used. -/
structure AuthNet where
  fresh : ℕ
  history : ℕ → ℕ → HbHistory ℕ
  bridge : ℕ → ℕ → AuthBridge ℕ SymKey ℕ ℕ
  hbs : List Heartbeat
  sent : List Challenge

namespace AuthNet

variable (cfg : NodeConfig)

def node (i : ℕ) : AuthDB ℕ SymKey ℕ ℕ where
  nonce := i
  sessionKey := .session i
  helloKey := .hello i
  pri := i + 1
  pub := i + 1
  dsa := if cfg.hasSvc i then 0 else i + 1
  svcDsa := 0
  startTime := cfg.start i

/-- A bridge to a peer that is new. -/
def newBridge (j : ℕ) : AuthBridge ℕ SymKey ℕ ℕ where
  nonce := j
  peerKey := .zero
  peerHello := .hello j
  dsa := j + 1
  hbPubkey := 0
  hb := ⟨0, 0, 0⟩
  auth0 := ⟨0, 0, 0⟩
  auth1 := ⟨0, 0, 0⟩
  recvSeqno := 0
  sendSeqno := 0
  challengeCount := 0
  authenticated := false
  challengeState := false
  byeBye := false

def init : AuthNet :=
  ⟨1, fun _ _ => ⟨⟨0, 0, 0⟩, List.replicate 3 ⟨0, 0, 0⟩⟩, fun _ j => newBridge j, [], []⟩

inductive Event where
  /-- node `i` sends a heartbeat on the transport -/
  | heartbeat (i tid time : ℕ) (bye : Bool)
  | recvHb (i : ℕ) (hb : Heartbeat) (args : HbArgs)
  | recvBye (i : ℕ) (hb : Heartbeat)
  /-- a challenge comes to its node on the transport -/
  | recvAuth (x : Challenge) (tid now : ℕ)
  | remove (i j : ℕ) (byeBye : Bool)
  | timeout (i j : ℕ)
  /-- the primary route to the peer changes -/
  | primary (i j : ℕ)
  /-- another node introduces the peer, with its key -/
  | peerAdd (i j : ℕ)

/-- The bridge of a node to a peer after an operation, and the challenge it sent. -/
def put (s : AuthNet) (i j : ℕ)
    (r : AuthBridge ℕ SymKey ℕ ℕ × Option (AuthMsg ℕ SymKey ℕ SymBody)) : AuthNet :=
  { s with
    fresh := s.fresh + 1
    bridge := fun a b => if a = i ∧ b = j then r.1 else s.bridge a b
    sent := s.sent ++ (r.2.map fun msg => ⟨i, j, msg⟩).toList }

/-- A heartbeat verifies with the hello key of a peer that is not authenticated, else
with the session key. -/
def hbVerifies (n : AuthBridge ℕ SymKey ℕ ℕ) (src : ℕ) : Bool :=
  if n.authenticated then n.peerKey = .session src else n.peerHello = .hello src

def step (s : AuthNet) : Event → AuthNet
  | .heartbeat i tid time bye =>
    let rte := (s.history i tid).push time s.fresh
    { s with
      fresh := s.fresh + 1
      history := fun a b => if a = i ∧ b = tid then rte else s.history a b
      hbs := s.hbs ++ [⟨i, time, rte.hb.seqno, s.fresh, cfg.start i, bye⟩] }
  | .recvHb i hb args =>
    let n := s.bridge i hb.src
    if hbVerifies n hb.src then
      s.put i hb.src (n.onHeartbeat symCrypt (node cfg i) hb (hb.src + 1) args s.fresh)
    else s
  | .recvBye i hb =>
    let n := s.bridge i hb.src
    if hbVerifies n hb.src then s.put i hb.src (n.onBye hb, none) else s
  | .recvAuth x tid now =>
    s.put x.dst x.src ((s.bridge x.dst x.src).onMsg symCrypt (node cfg x.dst)
      (s.history x.dst tid) x.msg now s.fresh)
  | .remove i j byeBye => s.put i j ((s.bridge i j).removeAuthenticated byeBye, none)
  | .timeout i j => s.put i j ((s.bridge i j).challengeTimeout, none)
  | .primary i j =>
    s.put i j ({ s.bridge i j with hb := { (s.bridge i j).hb with seqno := 0 } }, none)
  | .peerAdd i j =>
    s.put i j ({ s.bridge i j with authenticated := true, peerKey := .session j }, none)

/-- Only what was sent is received, any number of times and in any order. -/
def Received (s : AuthNet) : Event → Prop
  | .recvHb _ hb _ => hb ∈ s.hbs ∧ hb.bye = false
  | .recvBye _ hb => hb ∈ s.hbs ∧ hb.bye = true
  | .recvAuth x _ _ => x ∈ s.sent
  | _ => True

/-! ## What is known of a challenge -/

/-- The nonce is of a heartbeat of the node. -/
def Issued (s : AuthNet) (i cnonce : ℕ) : Prop :=
  ∃ hb ∈ s.hbs, hb.src = i ∧ hb.bye = false ∧ hb.cnonce = cnonce

/-- The challenges of a node to a peer. -/
def challengesTo (s : AuthNet) (i j : ℕ) : List Challenge :=
  s.sent.filter fun x => x.src = i && x.dst = j

/-- A challenge of the first stage is over a heartbeat of the one who is challenged, and
one of the second stage over a challenge of the first. -/
def Formed (s : AuthNet) (x : Challenge) : Prop :=
  ∃ n : AuthBridge ℕ SymKey ℕ ℕ, n.nonce = x.dst ∧
    ((x.msg = n.sendChallenge symCrypt (node cfg x.src) AuthStage.fromHello ∧
        Issued s x.dst n.auth0.cnonce ∧ Issued s x.dst (s.bridge x.src x.dst).hb.cnonce) ∨
      (x.msg = n.sendChallenge symCrypt (node cfg x.src) AuthStage.fromHandshake ∧
        ∃ y ∈ s.challengesTo x.dst x.src, y.cnonce = n.auth0.cnonce ∧ y.msg.stage = some 1))

structure Inv (s : AuthNet) : Prop where
  nonce : ∀ i j, (s.bridge i j).nonce = j
  formed : ∀ x ∈ s.sent, Formed cfg s x
  used : ∀ x ∈ s.sent, x.cnonce < s.fresh
  latest : ∀ i j, ∀ x ∈ s.challengesTo i j, x.cnonce = (s.bridge i j).auth1.cnonce →
    ∃ y ∈ (s.challengesTo i j).getLast?, y.cnonce = x.cnonce

section

variable {cfg} {s s' : AuthNet} {i j : ℕ}

theorem mem_challengesTo {x : Challenge} :
    x ∈ s.challengesTo i j ↔ x ∈ s.sent ∧ x.src = i ∧ x.dst = j := by
  simp [challengesTo]

theorem Issued.mono {cnonce : ℕ} (h : Issued s i cnonce) (hsub : s.hbs ⊆ s'.hbs) :
    Issued s' i cnonce := by
  obtain ⟨hb, hmem, hhb⟩ := h
  exact ⟨hb, hsub hmem, hhb⟩

/-- A challenge stays as it was formed, as long as the heartbeats that are recorded are
of the peers. -/
theorem Formed.mono {x : Challenge} (h : Formed cfg s x) (hhbs : s.hbs ⊆ s'.hbs)
    (hsent : s.sent ⊆ s'.sent)
    (hhb : Issued s x.dst (s.bridge x.src x.dst).hb.cnonce →
      Issued s' x.dst (s'.bridge x.src x.dst).hb.cnonce) : Formed cfg s' x := by
  obtain ⟨n, hn, ⟨hmsg, hissued, hknown⟩ | ⟨hmsg, y, hy, hcnonce⟩⟩ := h
  · exact ⟨n, hn, .inl ⟨hmsg, hissued.mono hhbs, hhb hknown⟩⟩
  · rw [mem_challengesTo] at hy
    exact ⟨n, hn, .inr ⟨hmsg, y, mem_challengesTo.2 ⟨hsent hy.1, hy.2⟩, hcnonce⟩⟩

/-- Who got a challenge of the second stage has sent one of the first, after a
heartbeat. -/
theorem Inv.known (h : Inv cfg s) {x : Challenge} (hx : x ∈ s.sent) (hstage : x.msg.stage = some 2) :
    Issued s x.src (s.bridge x.dst x.src).hb.cnonce := by
  obtain ⟨n, hn, ⟨hmsg, -⟩ | ⟨hmsg, y, hy, -, hystage⟩⟩ := h.formed x hx
  · rw [hmsg] at hstage
    cases hstage
  · rw [mem_challengesTo] at hy
    obtain ⟨ymem, ysrc, ydst⟩ := hy
    obtain ⟨n', -, ⟨-, -, hknown⟩ | ⟨hymsg, -⟩⟩ := h.formed y ymem
    · rwa [ysrc, ydst] at hknown
    · rw [hymsg] at hystage
      cases hystage

/-! ## Steps -/

theorem put_bridge (s : AuthNet) (i j : ℕ)
    (r : AuthBridge ℕ SymKey ℕ ℕ × Option (AuthMsg ℕ SymKey ℕ SymBody)) :
    (s.put i j r).bridge i j = r.1 := by simp [put]

theorem put_bridge_of_ne {a b : ℕ} (hne : ¬ (a = i ∧ b = j))
    (r : AuthBridge ℕ SymKey ℕ ℕ × Option (AuthMsg ℕ SymKey ℕ SymBody)) :
    (s.put i j r).bridge a b = s.bridge a b := by simp [put, hne]

theorem challengesTo_put {a b : ℕ}
    (r : AuthBridge ℕ SymKey ℕ ℕ × Option (AuthMsg ℕ SymKey ℕ SymBody)) :
    (s.put i j r).challengesTo a b = s.challengesTo a b ++
      if a = i ∧ b = j then (r.2.map fun msg => ⟨i, j, msg⟩).toList else [] := by
  cases hr : r.2 with
  | none => simp [challengesTo, put, hr]
  | some msg =>
    by_cases hij : a = i ∧ b = j
    · obtain ⟨rfl, rfl⟩ := hij
      simp [challengesTo, put, hr]
    · rw [if_neg hij]
      have hnot : ¬ (i = a ∧ j = b) := fun h => hij ⟨h.1.symm, h.2.symm⟩
      simp only [challengesTo, put, hr, Option.map_some, Option.toList_some, List.filter_append,
        List.append_nil]
      have hfalse : (decide (i = a) && decide (j = b)) = false := by simpa using hnot
      rw [List.filter_singleton, hfalse, cond_false, List.append_nil]

/-- The nonce of a challenge that is sent is new. -/
theorem cnonce_of_sends {peer : Option ℕ} {cnonce : ℕ} {db : AuthDB ℕ SymKey ℕ ℕ}
    {n : AuthBridge ℕ SymKey ℕ ℕ}
    {r : AuthBridge ℕ SymKey ℕ ℕ × Option (AuthMsg ℕ SymKey ℕ SymBody)}
    (hop : AuthBridge.Operated symCrypt db peer n r cnonce) {msg : AuthMsg ℕ SymKey ℕ SymBody}
    (hmsg : msg ∈ r.2) : Challenge.cnonce ⟨i, j, msg⟩ = cnonce := by
  obtain ⟨-, n', hsends, ⟨rfl, -⟩ | ⟨rfl, -⟩⟩ := hop.sends msg hmsg
  · exact hsends.cnonce
  · exact hsends.cnonce

/-- An operation of a node on the bridge of a peer: the nonces that it takes for challenges
are those of the peer. -/
theorem Inv.put (h : Inv cfg s) {peer : Option ℕ}
    {r : AuthBridge ℕ SymKey ℕ ℕ × Option (AuthMsg ℕ SymKey ℕ SymBody)}
    (hop : AuthBridge.Operated symCrypt (node cfg i) peer (s.bridge i j) r s.fresh)
    (hhb : Issued s j (s.bridge i j).hb.cnonce → Issued s j r.1.hb.cnonce)
    (hhello : ∀ msg ∈ r.2, msg.stage = some 1 → Issued s j r.1.hb.cnonce)
    (hpeer : ∀ msg ∈ r.2, msg.stage = some 2 → ∀ cnonce ∈ peer,
      ∃ y ∈ s.challengesTo j i, y.cnonce = cnonce ∧ y.msg.stage = some 1) :
    Inv cfg (s.put i j r) := by
  have hsub : s.sent ⊆ (s.put i j r).sent := List.subset_append_left _ _
  have hknown {a b : ℕ} (hab : Issued s b (s.bridge a b).hb.cnonce) :
      Issued (s.put i j r) b ((s.put i j r).bridge a b).hb.cnonce := by
    by_cases hij : a = i ∧ b = j
    · obtain ⟨rfl, rfl⟩ := hij
      rw [put_bridge]
      exact hhb hab
    · rw [put_bridge_of_ne hij]
      exact hab
  refine ⟨fun a b => ?_, fun x hx => ?_, fun x hx => ?_, fun a b x hx heq => ?_⟩
  · by_cases hij : a = i ∧ b = j
    · obtain ⟨rfl, rfl⟩ := hij
      rw [put_bridge, hop.nonce, h.nonce]
    · rw [put_bridge_of_ne hij, h.nonce]
  · rcases List.mem_append.1 hx with hx | hx
    · exact (h.formed x hx).mono (List.Subset.refl _) hsub hknown
    · -- the challenge that is new
      rw [Option.mem_toList] at hx
      obtain ⟨msg, hmsg, rfl⟩ := Option.map_eq_some_iff.1 hx
      obtain ⟨-, n', hsends, ⟨rfl, hauth⟩ | ⟨rfl, hauth⟩⟩ := hop.sends msg hmsg
      · refine ⟨n', hsends.nonce.trans (h.nonce i j), .inl ⟨rfl, ?_, ?_⟩⟩
        · rw [hauth]
          exact hhello _ hmsg rfl
        · show Issued _ j ((s.put i j r).bridge i j).hb.cnonce
          rw [put_bridge]
          exact hhello _ hmsg rfl
      · obtain ⟨y, hy, hcnonce⟩ := hpeer _ hmsg rfl _ hauth
        rw [mem_challengesTo] at hy
        exact ⟨n', hsends.nonce.trans (h.nonce i j), .inr ⟨rfl, y,
          mem_challengesTo.2 ⟨hsub hy.1, hy.2⟩, hcnonce⟩⟩
  · rcases List.mem_append.1 hx with hx | hx
    · exact (h.used x hx).trans (Nat.lt_succ_self _)
    · rw [Option.mem_toList] at hx
      obtain ⟨msg, hmsg, rfl⟩ := Option.map_eq_some_iff.1 hx
      rw [cnonce_of_sends hop hmsg]
      exact Nat.lt_succ_self _
  · by_cases hij : a = i ∧ b = j
    · obtain ⟨rfl, rfl⟩ := hij
      rw [put_bridge] at heq
      rw [challengesTo_put, if_pos ⟨rfl, rfl⟩] at hx ⊢
      cases hr : r.2 with
      | none =>
        rw [hr] at hx
        simp only [Option.map_none, Option.toList_none, List.append_nil] at hx ⊢
        rcases hop.kept hr with hsame | hnew
        · rw [hsame] at heq
          exact h.latest a b x hx heq
        · have hlt := h.used x (mem_challengesTo.1 hx).1
          rw [heq, hnew] at hlt
          exact absurd hlt (Nat.lt_irrefl _)
      | some msg =>
        simp only [Option.map_some, Option.toList_some, List.getLast?_append,
          List.getLast?_singleton, Option.some_or]
        exact ⟨_, rfl, by rw [cnonce_of_sends hop hr, heq, (hop.sends msg hr).1]⟩
    · rw [put_bridge_of_ne hij] at heq
      rw [challengesTo_put, if_neg hij, List.append_nil] at hx ⊢
      exact h.latest a b x hx heq

/-- A heartbeat goes out: nothing that is known gets lost. -/
theorem Inv.heartbeat (h : Inv cfg s) (i tid time : ℕ) (bye : Bool) :
    Inv cfg (step cfg s (.heartbeat i tid time bye)) := by
  have hsub : s.hbs ⊆ (step cfg s (.heartbeat i tid time bye)).hbs :=
    List.subset_append_left _ _
  exact ⟨h.nonce, fun x hx => (h.formed x hx).mono hsub (List.Subset.refl _) fun hb => hb.mono hsub,
    fun x hx => (h.used x hx).trans (Nat.lt_succ_self _), h.latest⟩

theorem onHeartbeat_hb {κ σ δ β : Type} (c : AuthCrypt ℕ κ ℕ σ δ β) (db : AuthDB ℕ κ ℕ δ)
    (n : AuthBridge ℕ κ ℕ δ) (hb : Heartbeat) (pubkey : ℕ) (args : HbArgs) (cnonce : ℕ) :
    let r := n.onHeartbeat c db hb pubkey args cnonce
    (r.1.hb = n.hb ∧ r.2 = none) ∨ r.1.hb.cnonce = hb.cnonce := by
  rw [AuthBridge.onHeartbeat]
  split
  · exact .inl ⟨rfl, rfl⟩
  · split
    · refine .inr ?_
      dsimp only
      split
      · rfl
      · split
        · rfl
        · rfl
    · exact .inl ⟨rfl, rfl⟩

theorem Inv.recvHb (h : Inv cfg s) {hb : Heartbeat} (hmem : hb ∈ s.hbs) (hbye : hb.bye = false)
    (i : ℕ) (args : HbArgs) : Inv cfg (step cfg s (.recvHb i hb args)) := by
  have hissued : Issued s hb.src hb.cnonce := ⟨hb, hmem, rfl, hbye, rfl⟩
  simp only [step]
  split
  · have hop := AuthBridge.onHeartbeat_operated symCrypt (node cfg i) (s.bridge i hb.src)
      hb (hb.src + 1) args s.fresh
    have hcases := onHeartbeat_hb symCrypt (node cfg i) (s.bridge i hb.src) hb (hb.src + 1) args
      s.fresh
    refine h.put hop (fun hknown => ?_) (fun msg hmsg _ => ?_) (fun msg hmsg hstage => ?_)
    · rcases hcases with ⟨hsame, -⟩ | hnew
      · rw [hsame]
        exact hknown
      · rw [hnew]
        exact hissued
    · rcases hcases with ⟨-, hnone⟩ | hnew
      · rw [hnone] at hmsg
        cases hmsg
      · rw [hnew]
        exact hissued
    · exact fun _ hpeer => absurd hpeer (Option.not_mem_none _)
  · exact h

theorem onBye_hb {κ δ : Type} (n : AuthBridge ℕ κ ℕ δ) (hb : Heartbeat) :
    (n.onBye hb).hb.cnonce = n.hb.cnonce := by
  rw [AuthBridge.onBye]
  split
  · rfl
  · split
    · rfl
    · rfl

/-- An operation that sends nothing and records no heartbeat. -/
theorem Inv.quiet (h : Inv cfg s) {n : AuthBridge ℕ SymKey ℕ ℕ}
    (hop : AuthBridge.Operated symCrypt (node cfg i) none (s.bridge i j) (n, none) s.fresh)
    (hhb : n.hb.cnonce = (s.bridge i j).hb.cnonce) : Inv cfg (s.put i j (n, none)) :=
  h.put hop (fun hknown => hhb.symm ▸ hknown) (fun _ hmsg => absurd hmsg (Option.not_mem_none _))
    fun _ hmsg => absurd hmsg (Option.not_mem_none _)

theorem Inv.recvAuth (h : Inv cfg s) {x : Challenge} (hx : x ∈ s.sent) (tid now : ℕ) :
    Inv cfg (step cfg s (.recvAuth x tid now)) := by
  obtain ⟨hop, hhb, hstages⟩ := AuthBridge.onMsg_operated symCrypt (node cfg x.dst)
    (s.history x.dst tid) (s.bridge x.dst x.src) x.msg now s.fresh
  refine h.put hop (fun hknown => ?_) (fun msg hmsg hstage => ?_) (fun msg hmsg hstage => ?_)
  · rw [hhb]
    exact hknown
  · rcases hstages msg hmsg with ⟨htwo, -⟩ | ⟨-, hsent⟩
    · rw [hhb]
      exact h.known hx htwo
    · rw [hstage] at hsent
      cases hsent
  · intro cnonce hcnonce
    rcases hstages msg hmsg with ⟨-, hsent⟩ | ⟨hone, -⟩
    · rw [hstage] at hsent
      cases hsent
    · refine ⟨x, mem_challengesTo.2 ⟨hx, rfl, rfl⟩, ?_, hone⟩
      obtain ⟨f, hf, rfl⟩ := Option.map_eq_some_iff.1 hcnonce
      rw [Challenge.cnonce, hf]
      rfl

theorem Inv.step (h : Inv cfg s) {e : Event} (hok : Received s e) : Inv cfg (step cfg s e) := by
  cases e with
  | heartbeat i tid time bye => exact h.heartbeat i tid time bye
  | recvHb i hb args => exact h.recvHb hok.1 hok.2 i args
  | recvBye i hb =>
    simp only [AuthNet.step]
    split
    · exact h.quiet (AuthBridge.onBye_operated hb _) (onBye_hb _ hb)
    · exact h
  | recvAuth x tid now => exact h.recvAuth hok tid now
  | remove i j byeBye => exact h.quiet (AuthBridge.removeAuthenticated_operated byeBye _) rfl
  | timeout i j => exact h.quiet (.silent rfl rfl) rfl
  | primary i j => exact h.quiet (.silent rfl rfl) rfl
  | peerAdd i j => exact h.quiet (.silent rfl rfl) rfl

theorem inv_init : Inv cfg init where
  nonce _ _ := rfl
  formed _ hx := absurd hx List.not_mem_nil
  used _ hx := absurd hx List.not_mem_nil
  latest _ _ _ hx := absurd hx List.not_mem_nil

/-! ## Agreement -/

/-- The peer `j` made a challenge for node `i` over the nonce. -/
def Challenged (s : AuthNet) (i j cnonce : ℕ) : Prop :=
  ∃ x ∈ s.challengesTo j i, ∃ secret cnonce1 seqno time stage,
    x.msg.authKey =
      some (.enc (.challenge secret i j cnonce cnonce1 seqno time stage) (.session j))

/-- The nonce is of a heartbeat that the node sent and that is in the history of one of its
transports, or of its latest challenge to the peer. -/
def GaveOut (s : AuthNet) (i j cnonce : ℕ) : Prop :=
  (Issued s i cnonce ∧ ∃ tid, ∃ hb ∈ (s.history i tid).hb :: (s.history i tid).auth,
    hb.cnonce = cnonce) ∨
  ∃ y ∈ (s.challengesTo i j).getLast?, y.cnonce = cnonce

/-- The key that a challenge carries is the session key of its sender only for the one it
was made for, and with the nonce it was made over. -/
theorem carried_session {x : Challenge} {n b : AuthBridge ℕ SymKey ℕ ℕ} {f : AuthFields ℕ ℕ}
    {auth0 : StageAuth ℕ} {stage stage' : ℕ}
    (hmsg : x.msg = n.sendChallenge symCrypt (node cfg x.src) stage')
    (hver : symCrypt.verify (b.carriedKey symCrypt (node cfg x.dst) x.msg f auth0 stage)
      x.msg.toAuthContent x.msg.body = true) :
    b.carriedKey symCrypt (node cfg x.dst) x.msg f auth0 stage = .session x.src ∧
      auth0.cnonce = n.auth0.cnonce ∧ stage = stage' := by
  have hkey : b.carriedKey symCrypt (node cfg x.dst) x.msg f auth0 stage = .session x.src := by
    have hbody : x.msg.body.session = .session x.src := by rw [hmsg]; rfl
    rw [← hbody]
    exact of_decide_eq_true (Bool.and_eq_true_iff.1 hver).1
  refine ⟨hkey, ?_⟩
  rw [hmsg] at hkey
  simp only [AuthBridge.carriedKey, AuthBridge.sendChallenge, AuthBridge.challengeContent,
    Option.getD_some, symCrypt, SymKey.decrypt] at hkey
  split at hkey
  · rename_i heq
    injection heq with _ _ _ hcnonce _ _ _ hstage
    exact ⟨hcnonce, hstage⟩
  · cases hkey

/-- A heartbeat that is found is one of the history. -/
theorem copyFromHb_mem {f : AuthFields ℕ ℕ} {rte : HbHistory ℕ}
    (h : (StageAuth.copyFromHb 0 f rte).2 = true) :
    ∃ hb ∈ rte.hb :: rte.auth, hb.cnonce = (StageAuth.copyFromHb 0 f rte).1.cnonce := by
  rw [StageAuth.copyFromHb] at h ⊢
  split at h
  · rename_i heq
    rw [if_pos heq]
    exact ⟨rte.hb, List.mem_cons_self, rfl⟩
  · rename_i hne
    rw [if_neg hne]
    split at h
    · rename_i a hfind
      have hmem := List.mem_of_find?_eq_some hfind
      exact ⟨a, List.mem_cons_of_mem _ ((List.takeWhile_sublist _).subset hmem), rfl⟩
    · cases h

/-- `auth[ 0 ]` that is found has a nonce of the history, or that of `auth[ 1 ]`. -/
theorem found_cases {n : AuthBridge ℕ SymKey ℕ ℕ} {rte : HbHistory ℕ}
    {m : AuthMsg ℕ SymKey ℕ SymBody} {y : AuthFields ℕ ℕ × StageAuth ℕ × ℕ}
    (h : y ∈ n.found symCrypt rte m) :
    (y.2.2 = AuthStage.fromHello ∧ ∃ hb ∈ rte.hb :: rte.auth, hb.cnonce = y.2.1.cnonce) ∨
      (y.2.2 = AuthStage.fromHandshake ∧ y.2.1.cnonce = n.auth1.cnonce) := by
  rw [AuthBridge.found] at h
  split at h
  · dsimp only at h
    split at h
    · rename_i hfound
      cases h
      exact .inl ⟨rfl, copyFromHb_mem hfound⟩
    · cases h
  · obtain ⟨auth0, hauth, rfl⟩ := Option.map_eq_some_iff.1 h
    rw [StageAuth.copyFromAuth] at hauth
    split at hauth
    · cases hauth
      exact .inr ⟨rfl, rfl⟩
    · cases hauth
  · cases h

theorem Inv.agreed (h : Inv cfg s) {x : Challenge} (hx : x ∈ s.sent) {tid now : ℕ}
    (hbefore : (s.bridge x.dst x.src).authenticated = false)
    (hafter : ((AuthNet.step cfg s (.recvAuth x tid now)).bridge x.dst x.src).authenticated =
      true) :
    ((AuthNet.step cfg s (.recvAuth x tid now)).bridge x.dst x.src).peerKey = .session x.src ∧
      ∃ cnonce, Challenged s x.dst x.src cnonce ∧ GaveOut s x.dst x.src cnonce := by
  rw [AuthNet.step, put_bridge] at hafter ⊢
  obtain ⟨y, hy, hver, hkey⟩ := AuthBridge.onMsg_marks hbefore hafter
  have hmade {n : AuthBridge ℕ SymKey ℕ ℕ} {stage : ℕ} (hn : n.nonce = x.dst)
      (hmsg : x.msg = n.sendChallenge symCrypt (node cfg x.src) stage) :
      Challenged s x.dst x.src n.auth0.cnonce := by
    have hauth : x.msg.authKey = some (.enc (.challenge
        (SymKey.secretOf (x.src + 1) (.hello x.src) n.hbPubkey n.peerHello) x.dst x.src
        n.auth0.cnonce n.auth1.cnonce n.auth0.seqno n.auth0.time stage) (.session x.src)) := by
      rw [hmsg, ← hn]
      rfl
    exact ⟨x, mem_challengesTo.2 ⟨hx, rfl, rfl⟩, _, _, _, _, _, hauth⟩
  obtain ⟨n, hn, ⟨hmsg, hissued, -⟩ | ⟨hmsg, z, hz, hcnonce, -⟩⟩ := h.formed x hx
  · obtain ⟨hsession, heq, hstage⟩ := carried_session hmsg hver
    refine ⟨hkey.trans hsession, n.auth0.cnonce, hmade hn hmsg, .inl ⟨hissued, tid, ?_⟩⟩
    rcases found_cases hy with ⟨-, hhb⟩ | ⟨hstage', -⟩
    · rwa [heq] at hhb
    · rw [hstage] at hstage'
      cases hstage'
  · obtain ⟨hsession, heq, hstage⟩ := carried_session hmsg hver
    refine ⟨hkey.trans hsession, n.auth0.cnonce, hmade hn hmsg, .inr ?_⟩
    rcases found_cases hy with ⟨hstage', -⟩ | ⟨-, hauth⟩
    · rw [hstage] at hstage'
      cases hstage'
    · obtain ⟨w, hw, hlast⟩ := h.latest x.dst x.src z hz (hcnonce.trans (heq.symm.trans hauth))
      exact ⟨w, hw, hlast.trans hcnonce⟩

end

/-- A node that marks a peer authenticated by a challenge has its session key, and the peer
made a challenge for this node over a nonce that the node gave out. -/
theorem authenticated_agrees (cfg : NodeConfig) {s : AuthNet}
    (hrun : Run.Reach (step cfg) Received init s) {x : Challenge} {tid now : ℕ} (hx : x ∈ s.sent)
    (hbefore : (s.bridge x.dst x.src).authenticated = false)
    (hafter : ((step cfg s (.recvAuth x tid now)).bridge x.dst x.src).authenticated = true) :
    ((step cfg s (.recvAuth x tid now)).bridge x.dst x.src).peerKey = .session x.src ∧
      ∃ cnonce, Challenged s x.dst x.src cnonce ∧ GaveOut s x.dst x.src cnonce :=
  (hrun.invariant inv_init fun _ _ hs hok => hs.step hok).agreed hx hbefore hafter

/-- Node 0 is older than node 1, and challenges it on its first heartbeat. -/
def twoNodes : NodeConfig := ⟨fun i => 100 * (i + 1), fun _ => false⟩

def helloNet : AuthNet :=
  [.heartbeat 1 0 200 false, .recvHb 0 ⟨1, 200, 1, 1, 200, false⟩ ⟨true, true, false, 300⟩].foldl
    (step twoNodes) init

/-- Node 1 verifies the challenge, and sends its own. -/
def handshakeNet : AuthNet :=
  step twoNodes helloNet (.recvAuth (helloNet.sent.head (by decide)) 0 301)

/-- Node 0 verifies the challenge of node 1. -/
theorem authenticated_agrees_handshake :
    let x := handshakeNet.sent.getLast (by decide)
    let s := step twoNodes handshakeNet (.recvAuth x 0 302)
    (x.dst = 0 ∧ x.src = 1) ∧ (s.bridge x.dst x.src).peerKey = .session x.src ∧
      ∃ cnonce, Challenged handshakeNet x.dst x.src cnonce ∧
        GaveOut handshakeNet x.dst x.src cnonce := by
  have hhello : Run.Reach (step twoNodes) Received init helloNet :=
    Run.Reach.start.foldl ⟨trivial, ⟨by decide, rfl⟩, trivial⟩
  have hrun : Run.Reach (step twoNodes) Received init handshakeNet :=
    hhello.snoc _ (List.head_mem _)
  exact ⟨by decide, authenticated_agrees twoNodes hrun (List.getLast_mem _) (by decide) (by decide)⟩

end AuthNet

end Raims
