import Raims.LinkState.UserDB

/-!
# Adjacency requests (`recv_adjacency_request`)

A peer that is behind asks for the link state and the bloom of a user, naming the
two seqnos it has; the request may also carry its `peer_db`, a record with the two
seqnos for every peer it knows. The node answers what it has newer and asks back
for what it has older. Each call made is listed with what it answers: the user the
request is about, a record, or a peer that the records leave out.
-/

namespace Raims

/-- The two seqnos a link state and a bloom are known by, as a node has them or
as a request names them. -/
structure SyncSeqnos where
  linkState : ℕ
  subSeqno : ℕ
deriving DecidableEq

/-- `PeerDBRec`, less the fields `recv_adjacency_request` does not read. A field
that the record lacks is zero. -/
structure PeerDBRec where
  nonce : Nonce
  seqnos : SyncSeqnos
deriving DecidableEq

/-- The fields of an adjacency request. The numbers are zero when they are missing. -/
structure AdjacencyRequestMsg where
  seqnos : SyncSeqnos
  adjInfo : ℕ
  syncBridge : Option Nonce
  peerDb : Option (List PeerDBRec)

/-- `UID_CSUM_SYNC_REQ`: the sender's checksum of the peers differs. -/
def UID_CSUM_SYNC_REQ : ℕ := 11

/-- The bits of `which`. -/
structure Which where
  syncLink : Bool
  syncSub : Bool
  rqSyncLink : Bool
  rqSyncSub : Bool
deriving DecidableEq

namespace Which

/-- `SYNC_NONE`. -/
def none : Which := ⟨false, false, false, false⟩

/-- `( which & SYNC_ANY ) != 0`. -/
def syncAny (which : Which) : Bool := which.syncLink || which.syncSub

/-- `( which & RQ_SYNC_ANY ) != 0`. -/
def rqSyncAny (which : Which) : Bool := which.rqSyncLink || which.rqSyncSub

/-- The comparison of the link states, the same for both paths. -/
def link (own rq : SyncSeqnos) (which : Which) : Which :=
  if rq.linkState < own.linkState then { which with syncLink := true }
  else if own.linkState < rq.linkState then { which with rqSyncLink := true }
  else which

/-- `which` for the user the request is about. The last comparison is of the link
states once more. -/
def ofRequested (own rq : SyncSeqnos) : Which :=
  let which := none.link own rq
  if rq.subSeqno < own.subSeqno then { which with syncSub := true }
  else if own.linkState < rq.linkState then { which with rqSyncSub := true }
  else which

/-- `pdb_which` for a record. -/
def ofRecord (own rq : SyncSeqnos) : Which :=
  let which := none.link own rq
  if rq.subSeqno < own.subSeqno then { which with syncSub := true }
  else if own.subSeqno < rq.subSeqno then { which with rqSyncSub := true }
  else which

end Which

/-- The calls of `recv_adjacency_request`. `send_adjacency` puts the link state
and the bloom of `sync`, the node itself if null, in the reply where `which` says
so; `send_adjacency_request` asks the peer, unless a request to it is throttled. -/
inductive AdjCall where
  | sendAdjacency (sync : Option ℕ) (which : Which)
  | sendAdjacencyRequest (uid : ℕ)
deriving DecidableEq

/-- What a call is made for. -/
inductive AdjCause where
  | requested
  | record (rec : PeerDBRec)
  | unlisted
deriving DecidableEq

/-- What `recv_adjacency_request` reads: the peers, and the seqnos of the
subscriptions, which `UserDB` has no use for. -/
structure AdjSync where
  db : UserDB
  /-- `link_state_seqno` of the node -/
  linkStateSeqno : ℕ
  /-- `sub_db.sub_seqno` -/
  subSeqno : ℕ
  /-- `sub_seqno` of a peer -/
  peerSubSeqno : ℕ → ℕ

namespace AdjSync

/-- The seqnos the node has for a peer, if it has a bridge. -/
def peerSeqnos (s : AdjSync) (uid : ℕ) : Option SyncSeqnos :=
  (s.db.bridgeTab uid).map fun n => ⟨n.linkStateSeqno, s.peerSubSeqno uid⟩

/-- The user the request is about, null for the node itself, with the seqnos the
node has; none when the bridge id is not known. -/
def requested (s : AdjSync) (rq : AdjacencyRequestMsg) : Option (Option ℕ × SyncSeqnos) :=
  match rq.syncBridge with
  | none => some (none, ⟨s.linkStateSeqno, s.subSeqno⟩)
  | some nonce =>
    match s.db.nodeHt nonce with
    | none => none
    | some uid =>
      if uid ≠ 0 then (s.peerSeqnos uid).map fun own => (some uid, own)
      else some (none, ⟨s.linkStateSeqno, s.subSeqno⟩)

/-- The calls for the user the request is about. -/
def requestedCalls (sync : Option ℕ) (own rq : SyncSeqnos) : List AdjCall :=
  let which := Which.ofRequested own rq
  (if which.syncAny then [.sendAdjacency sync which] else []) ++
    match sync with
    | none => []
    | some uid => if which.rqSyncAny then [.sendAdjacencyRequest uid] else []

/-- The calls for a record of the peer `uid`. -/
def recordCalls (uid : ℕ) (own rq : SyncSeqnos) : List AdjCall :=
  let which := Which.ofRecord own rq
  if which.syncAny then [.sendAdjacency (some uid) which]
  else if which.rqSyncAny then [.sendAdjacencyRequest uid]
  else []

/-- The peer of a record, with the seqnos the node has. -/
def recorded (s : AdjSync) (rec : PeerDBRec) : Option (ℕ × SyncSeqnos) :=
  (s.db.nodeHt rec.nonce).bind fun uid => (s.peerSeqnos uid).map fun own => (uid, own)

/-- The calls for one record, none if its peer has no bridge. -/
def callsOfRecord (s : AdjSync) (rec : PeerDBRec) : List AdjCall :=
  match s.recorded rec with
  | none => []
  | some (uid, own) => recordCalls uid own rec.seqnos

/-- The peers left in `pdb` after the records: authenticated, and in none of them. -/
def unlisted (s : AdjSync) (recs : List PeerDBRec) : List ℕ :=
  (List.range s.db.nextUid).filter fun uid =>
    uid ≠ 0 ∧ (s.db.bridgeTab uid).any UserBridge.authenticated ∧
      ∀ rec ∈ recs, (s.recorded rec).map Prod.fst ≠ some uid

/-- The calls of the last loop, when the checksums of the peers differ. -/
def unlistedCalls (s : AdjSync) (n : ℕ) (rq : AdjacencyRequestMsg) (recs : List PeerDBRec) :
    List AdjCall :=
  if rq.adjInfo = UID_CSUM_SYNC_REQ then
    ((s.unlisted recs).filter (· ≠ n)).map fun uid =>
      .sendAdjacency (some uid) ⟨true, true, false, false⟩
  else []

/-- `sent_one`: the last loop does not set it. -/
def sentOne (calls : List AdjCall) : Bool :=
  calls.any fun
    | .sendAdjacency _ _ => true
    | .sendAdjacencyRequest _ => false

/-- `recv_adjacency_request` of the peer `n`. -/
def recvAdjacencyRequest (s : AdjSync) (n : ℕ) (rq : AdjacencyRequestMsg) :
    List (AdjCause × AdjCall) :=
  match s.requested rq with
  | none => []
  | some (sync, own) =>
    let calls := requestedCalls sync own rq.seqnos
    let recs := rq.peerDb.getD []
    let unlisted := if rq.peerDb.isSome then s.unlistedCalls n rq recs else []
    calls.map (Prod.mk .requested) ++
      recs.flatMap (fun rec => (s.callsOfRecord rec).map (Prod.mk (.record rec))) ++
      unlisted.map (Prod.mk .unlisted) ++
      if sentOne (calls ++ recs.flatMap s.callsOfRecord) then []
      else [(.requested, .sendAdjacency sync (Which.ofRequested own rq.seqnos))]

/-! ## What is asked and how it is answered -/

/-- A user that the request asks for: the seqnos the node has and those the
request names. -/
structure Asked where
  cause : AdjCause
  /-- null for the node itself -/
  sync : Option ℕ
  own : SyncSeqnos
  rq : SyncSeqnos

/-- Everything the request asks for that the node knows. -/
def asked (s : AdjSync) (rq : AdjacencyRequestMsg) : List Asked :=
  match s.requested rq with
  | none => []
  | some (sync, own) =>
    ⟨.requested, sync, own, rq.seqnos⟩ ::
      (rq.peerDb.getD []).filterMap fun rec =>
        (s.recorded rec).map fun peer => ⟨.record rec, some peer.1, peer.2, rec.seqnos⟩

/-- The link state of `sync` is sent. -/
def SendsLink (calls : List AdjCall) (sync : Option ℕ) : Prop :=
  ∃ which, .sendAdjacency sync which ∈ calls ∧ which.syncLink

/-- The bloom of `sync` is sent. -/
def SendsBloom (calls : List AdjCall) (sync : Option ℕ) : Prop :=
  ∃ which, .sendAdjacency sync which ∈ calls ∧ which.syncSub

/-- A request to the third peer `sync` is issued. -/
def Requests (calls : List AdjCall) (sync : Option ℕ) : Prop :=
  ∃ uid, sync = some uid ∧ .sendAdjacencyRequest uid ∈ calls

/-- The calls made for one cause. -/
def callsFor (out : List (AdjCause × AdjCall)) (cause : AdjCause) : List AdjCall :=
  (out.filter (·.1 = cause)).map Prod.snd

/-- The calls answer what is asked: the link state and the bloom are sent exactly
when the node's are newer, and a third peer is asked when either is older. -/
structure Answers (calls : List AdjCall) (q : Asked) : Prop where
  link : SendsLink calls q.sync ↔ q.rq.linkState < q.own.linkState
  bloom : SendsBloom calls q.sync ↔ q.rq.subSeqno < q.own.subSeqno
  request : q.sync ≠ none → q.own.linkState < q.rq.linkState ∨ q.own.subSeqno < q.rq.subSeqno →
    Requests calls q.sync

/-- Two lists of calls take the same decisions about a user. -/
structure SameDecisions (calls calls' : List AdjCall) (sync : Option ℕ) : Prop where
  link : SendsLink calls sync ↔ SendsLink calls' sync
  bloom : SendsBloom calls sync ↔ SendsBloom calls' sync
  request : Requests calls sync ↔ Requests calls' sync

/-- The request is answered: each user asked for by the calls made for it, and for
a third peer the two paths decide alike on its seqnos. -/
def AnswersAll (s : AdjSync) (n : ℕ) (rq : AdjacencyRequestMsg) : Prop :=
  ∀ q ∈ s.asked rq, Answers (callsFor (s.recvAdjacencyRequest n rq) q.cause) q ∧
    ∀ uid, q.sync = some uid →
      SameDecisions (requestedCalls (some uid) q.own q.rq) (recordCalls uid q.own q.rq) (some uid)

/-- The two seqnos of a third peer are not at odds: an older `sub_seqno` comes with
an older link state, and an older link state does not come with a newer `sub_seqno`. -/
def Asked.InStep (q : Asked) : Prop :=
  q.sync ≠ none →
    (q.own.subSeqno < q.rq.subSeqno → q.own.linkState < q.rq.linkState) ∧
    (q.own.linkState < q.rq.linkState → q.own.subSeqno ≤ q.rq.subSeqno)

/-! ## One path at a time -/

section Paths

variable (own rq : SyncSeqnos)

theorem syncLink_link (which : Which) :
    (which.link own rq).syncLink = (decide (rq.linkState < own.linkState) || which.syncLink) := by
  unfold Which.link
  split
  · simp [*]
  · split <;> simp [*]

theorem syncSub_link (which : Which) : (which.link own rq).syncSub = which.syncSub := by
  unfold Which.link
  split
  · rfl
  · split <;> rfl

theorem rqSyncLink_link (which : Which) :
    (which.link own rq).rqSyncLink = (decide (own.linkState < rq.linkState) || which.rqSyncLink) := by
  unfold Which.link
  split
  · have : ¬ own.linkState < rq.linkState := by omega
    simp [this]
  · split <;> simp [*]

theorem rqSyncSub_link (which : Which) : (which.link own rq).rqSyncSub = which.rqSyncSub := by
  unfold Which.link
  split
  · rfl
  · split <;> rfl

/-- The link part of `which`, and the bit for the bloom, on either path. -/
theorem ofRequested_syncs :
    (Which.ofRequested own rq).syncLink = decide (rq.linkState < own.linkState) ∧
    (Which.ofRequested own rq).syncSub = decide (rq.subSeqno < own.subSeqno) := by
  unfold Which.ofRequested
  split
  · simp [syncLink_link, Which.none, *]
  · split <;> simp [syncLink_link, syncSub_link, Which.none, *]

theorem ofRecord_syncs :
    (Which.ofRecord own rq).syncLink = decide (rq.linkState < own.linkState) ∧
    (Which.ofRecord own rq).syncSub = decide (rq.subSeqno < own.subSeqno) := by
  unfold Which.ofRecord
  split
  · simp [syncLink_link, Which.none, *]
  · split <;> simp [syncLink_link, syncSub_link, Which.none, *]

theorem ofRequested_rqSyncAny :
    (Which.ofRequested own rq).rqSyncAny = decide (own.linkState < rq.linkState) := by
  unfold Which.ofRequested Which.rqSyncAny
  split
  · simp [rqSyncLink_link, rqSyncSub_link, Which.none]
  · split <;> simp [rqSyncLink_link, rqSyncSub_link, Which.none, *]

theorem ofRecord_rqSyncAny :
    (Which.ofRecord own rq).rqSyncAny =
      decide (own.linkState < rq.linkState ∨ own.subSeqno < rq.subSeqno) := by
  unfold Which.ofRecord Which.rqSyncAny
  split
  · have : ¬ own.subSeqno < rq.subSeqno := by omega
    simp [rqSyncLink_link, rqSyncSub_link, Which.none, this]
  · split <;> simp [rqSyncLink_link, rqSyncSub_link, Which.none, *]

/-- Where the only reply there can be is made with `which`, its bits say what is
sent. -/
theorem sends_of_which {calls : List AdjCall} {sync : Option ℕ} {which₀ : Which}
    (h : ∀ which, .sendAdjacency sync which ∈ calls ↔ which₀.syncAny ∧ which = which₀) :
    (SendsLink calls sync ↔ which₀.syncLink) ∧ (SendsBloom calls sync ↔ which₀.syncSub) := by
  unfold SendsLink SendsBloom
  simp only [h, Which.syncAny, Bool.or_eq_true]
  constructor
  · constructor
    · rintro ⟨which, ⟨-, rfl⟩, hlink⟩
      exact hlink
    · intro hlink
      exact ⟨which₀, ⟨.inl hlink, rfl⟩, hlink⟩
  · constructor
    · rintro ⟨which, ⟨-, rfl⟩, hsub⟩
      exact hsub
    · intro hsub
      exact ⟨which₀, ⟨.inr hsub, rfl⟩, hsub⟩

/-- The path of the requested user sends what is newer. -/
theorem sends_requestedCalls (sync : Option ℕ) :
    (SendsLink (requestedCalls sync own rq) sync ↔ rq.linkState < own.linkState) ∧
    (SendsBloom (requestedCalls sync own rq) sync ↔ rq.subSeqno < own.subSeqno) := by
  have hmem : ∀ which, .sendAdjacency sync which ∈ requestedCalls sync own rq ↔
      (Which.ofRequested own rq).syncAny ∧ which = Which.ofRequested own rq := by
    intro which
    unfold requestedCalls
    cases sync <;> simp
  simpa [ofRequested_syncs] using sends_of_which hmem

/-- The path of the requested user asks back by the link states alone. -/
theorem requests_requestedCalls (uid : ℕ) :
    Requests (requestedCalls (some uid) own rq) (some uid) ↔ own.linkState < rq.linkState := by
  unfold Requests requestedCalls
  simp [ofRequested_rqSyncAny]

/-- The path of a record sends what is newer. -/
theorem sends_recordCalls (uid : ℕ) :
    (SendsLink (recordCalls uid own rq) (some uid) ↔ rq.linkState < own.linkState) ∧
    (SendsBloom (recordCalls uid own rq) (some uid) ↔ rq.subSeqno < own.subSeqno) := by
  have hmem : ∀ which, .sendAdjacency (some uid) which ∈ recordCalls uid own rq ↔
      (Which.ofRecord own rq).syncAny ∧ which = Which.ofRecord own rq := by
    intro which
    show _ ∈ ite _ _ _ ↔ _
    split
    · simp [*]
    · split <;> simp [*]
  simpa [ofRecord_syncs] using sends_of_which hmem

/-- The path of a record asks back only when it sends nothing. -/
theorem requests_recordCalls (uid : ℕ) :
    Requests (recordCalls uid own rq) (some uid) ↔
      (own.linkState ≤ rq.linkState ∧ own.subSeqno ≤ rq.subSeqno) ∧
      (own.linkState < rq.linkState ∨ own.subSeqno < rq.subSeqno) := by
  have hany : (Which.ofRecord own rq).syncAny =
      decide (rq.linkState < own.linkState ∨ rq.subSeqno < own.subSeqno) := by
    simp [Which.syncAny, ofRecord_syncs own rq]
  unfold Requests
  show (∃ v, _ ∧ _ ∈ ite _ _ _) ↔ _
  rw [hany, ofRecord_rqSyncAny]
  split
  · simp at *
    omega
  · simp at *
    omega

/-- The two paths decide alike unless the seqnos are at odds in one of two ways. -/
theorem sameDecisions_iff (uid : ℕ) :
    SameDecisions (requestedCalls (some uid) own rq) (recordCalls uid own rq) (some uid) ↔
      ¬ (own.linkState = rq.linkState ∧ own.subSeqno < rq.subSeqno) ∧
      ¬ (own.linkState < rq.linkState ∧ rq.subSeqno < own.subSeqno) := by
  have hrequest := (requests_requestedCalls own rq uid).symm
  have hrecord := requests_recordCalls own rq uid
  constructor
  · intro h
    have heq := (hrequest.trans h.request).trans hrecord
    obtain ⟨l, s⟩ := own
    obtain ⟨l', s'⟩ := rq
    simp at heq ⊢
    omega
  · intro h
    refine ⟨?_, ?_, ?_⟩
    · rw [(sends_requestedCalls own rq _).1, (sends_recordCalls own rq _).1]
    · rw [(sends_requestedCalls own rq _).2, (sends_recordCalls own rq _).2]
    · rw [← hrequest, hrecord]
      obtain ⟨l, s⟩ := own
      obtain ⟨l', s'⟩ := rq
      simp at h ⊢
      omega

end Paths

/-! ## The whole request -/

section Whole

variable {s : AdjSync} {n : ℕ} {rq : AdjacencyRequestMsg} {sync : Option ℕ} {own : SyncSeqnos}

theorem mem_callsFor {out : List (AdjCause × AdjCall)} {cause : AdjCause} {call : AdjCall} :
    call ∈ callsFor out cause ↔ (cause, call) ∈ out := by
  simp [callsFor]

/-- The calls of the path, and the reply of the last line when nothing was sent:
it holds neither the link state nor the bloom. -/
theorem mem_callsFor_requested (h : s.requested rq = some (sync, own)) (call : AdjCall)
    (hcall : call ∈ callsFor (s.recvAdjacencyRequest n rq) .requested) :
    call ∈ requestedCalls sync own rq.seqnos ∨
      (Which.ofRequested own rq.seqnos).syncAny = false ∧
        call = .sendAdjacency sync (Which.ofRequested own rq.seqnos) := by
  rw [mem_callsFor] at hcall
  simp only [recvAdjacencyRequest, h, List.mem_append] at hcall
  rcases hcall with ((hcall | hcall) | hcall) | hcall
  · exact .inl (by simpa using hcall)
  · simp at hcall
  · simp at hcall
  · split at hcall
    · simp at hcall
    · next hsent =>
      refine .inr ⟨?_, by simpa using hcall⟩
      -- a reply of the path would have set `sent_one`
      by_contra hany
      rw [Bool.not_eq_false] at hany
      refine hsent ?_
      simp [sentOne, requestedCalls, hany]

theorem requestedCalls_mem (h : s.requested rq = some (sync, own)) {call : AdjCall}
    (hcall : call ∈ requestedCalls sync own rq.seqnos) :
    call ∈ callsFor (s.recvAdjacencyRequest n rq) .requested := by
  rw [mem_callsFor]
  simp only [recvAdjacencyRequest, h, List.mem_append]
  exact .inl (.inl (.inl (by simpa using hcall)))

/-- So the last line adds nothing to what a bit of `which` sends. -/
theorem sends_callsFor_requested (h : s.requested rq = some (sync, own)) (bit : Which → Bool)
    (hbit : ∀ which, bit which → which.syncAny) :
    (∃ which, .sendAdjacency sync which ∈ callsFor (s.recvAdjacencyRequest n rq) .requested ∧
      bit which) ↔
    ∃ which, .sendAdjacency sync which ∈ requestedCalls sync own rq.seqnos ∧ bit which := by
  constructor
  · rintro ⟨which, hmem, hwhich⟩
    rcases mem_callsFor_requested h _ hmem with hmem | ⟨hany, hmem⟩
    · exact ⟨which, hmem, hwhich⟩
    · cases hmem
      rw [hbit _ hwhich] at hany
      cases hany
  · rintro ⟨which, hmem, hwhich⟩
    exact ⟨which, requestedCalls_mem h hmem, hwhich⟩

theorem mem_callsFor_record (h : s.requested rq = some (sync, own)) {rec : PeerDBRec}
    (hrec : rec ∈ rq.peerDb.getD []) (call : AdjCall) :
    call ∈ callsFor (s.recvAdjacencyRequest n rq) (.record rec) ↔ call ∈ s.callsOfRecord rec := by
  rw [mem_callsFor]
  simp only [recvAdjacencyRequest, h, List.mem_append]
  constructor
  · rintro (((hcall | hcall) | hcall) | hcall)
    · simp at hcall
    · simp only [List.mem_flatMap, List.mem_map, Prod.mk.injEq] at hcall
      obtain ⟨rec', -, call', hmem, heq, rfl⟩ := hcall
      cases heq
      exact hmem
    · simp at hcall
    · split at hcall <;> simp at hcall
  · intro hcall
    refine .inl (.inl (.inr ?_))
    exact List.mem_flatMap.mpr ⟨rec, hrec, List.mem_map_of_mem hcall⟩

/-- The requested user is answered, but for the request when only its `sub_seqno`
is older. -/
theorem answers_requested_iff (h : s.requested rq = some (sync, own)) :
    Answers (callsFor (s.recvAdjacencyRequest n rq) .requested)
        ⟨.requested, sync, own, rq.seqnos⟩ ↔
      (sync ≠ none → own.subSeqno < rq.seqnos.subSeqno →
        own.linkState < rq.seqnos.linkState) := by
  obtain ⟨hlink, hbloom⟩ := sends_requestedCalls own rq.seqnos sync
  constructor
  · intro hans hsync hlt
    obtain ⟨uid, rfl⟩ := Option.ne_none_iff_exists'.mp hsync
    obtain ⟨_, ⟨⟩, hmem⟩ := hans.request hsync (.inr hlt)
    rcases mem_callsFor_requested h _ hmem with hmem | ⟨-, hmem⟩
    · exact (requests_requestedCalls own rq.seqnos uid).mp ⟨uid, rfl, hmem⟩
    · cases hmem
  · intro hstep
    refine ⟨?_, ?_, ?_⟩
    · refine Iff.trans (sends_callsFor_requested h Which.syncLink ?_) hlink
      intro which hwhich
      simp [Which.syncAny, hwhich]
    · refine Iff.trans (sends_callsFor_requested h Which.syncSub ?_) hbloom
      intro which hwhich
      simp [Which.syncAny, hwhich]
    · intro hsync holder
      obtain ⟨uid, rfl⟩ := Option.ne_none_iff_exists'.mp hsync
      have hlt : own.linkState < rq.seqnos.linkState := by
        rcases holder with hlt | hlt
        · exact hlt
        · exact hstep hsync hlt
      obtain ⟨v, hv, hmem⟩ := (requests_requestedCalls own rq.seqnos uid).mpr hlt
      exact ⟨v, hv, requestedCalls_mem h hmem⟩

/-- A record is answered, but for the request when something was sent. -/
theorem answers_record_iff (h : s.requested rq = some (sync, own)) {rec : PeerDBRec}
    (hrec : rec ∈ rq.peerDb.getD []) {uid : ℕ} {own' : SyncSeqnos}
    (hfind : s.recorded rec = some (uid, own')) :
    Answers (callsFor (s.recvAdjacencyRequest n rq) (.record rec))
        ⟨.record rec, some uid, own', rec.seqnos⟩ ↔
      ((own'.linkState < rec.seqnos.linkState ∨ own'.subSeqno < rec.seqnos.subSeqno) →
        own'.linkState ≤ rec.seqnos.linkState ∧ own'.subSeqno ≤ rec.seqnos.subSeqno) := by
  obtain ⟨hlink, hbloom⟩ := sends_recordCalls own' rec.seqnos uid
  have hrequest := requests_recordCalls own' rec.seqnos uid
  have hcalls : s.callsOfRecord rec = recordCalls uid own' rec.seqnos := by
    simp [callsOfRecord, hfind]
  have hmem : ∀ call, call ∈ callsFor (s.recvAdjacencyRequest n rq) (.record rec) ↔
      call ∈ recordCalls uid own' rec.seqnos := by
    intro call
    rw [mem_callsFor_record h hrec, hcalls]
  constructor
  · intro hans holder
    obtain ⟨v, hv, hcall⟩ := hans.request (by simp) holder
    exact (hrequest.mp ⟨v, hv, (hmem _).mp hcall⟩).1
  · intro hstep
    refine ⟨?_, ?_, ?_⟩
    · simpa only [SendsLink, hmem] using hlink
    · simpa only [SendsBloom, hmem] using hbloom
    · rintro - holder
      have := hrequest.mpr ⟨hstep holder, holder⟩
      simpa only [Requests, hmem] using this

/-- A node that knows two peers, the first up to `link_state` 4 and `sub_seqno` 2. -/
def behindPeer : AdjSync :=
  ⟨(((UserDB.init 1).addUser 7).addUser 8).modifyBridge 1 fun n => { n with linkStateSeqno := 4 },
    1, 1, fun uid => if uid = 1 then 2 else 0⟩

/-- The second peer asks for the first, with the same `link_state` and a newer
`sub_seqno`. -/
def askBloom : AdjacencyRequestMsg := ⟨⟨4, 3⟩, 0, some 7, none⟩

end Whole

end AdjSync

end Raims
