import Raims.LinkState.SeqnoBook

/-!
# What a node records is what its peers say

The link states of `UserDB` and the subscription numbers of its peers, with their sums, over
whole runs: every handler that sets a number, the ways that a link state waits for its records
and is forced to start over, and the departures. While all that is applied fits in 32 bits and
no link state that was asked for from the start is older than the one recorded, the numbers
recorded are those of the messages, they only go up, and the sums move with them.
-/

namespace Raims

open SeqnoBook (SumMoves)

/-- `UserDB` and the numbers of `SubDB`. -/
structure SyncDB where
  db : UserDB
  links : SeqnoBook
  subs : SeqnoBook

namespace SyncDB

def init (nonce : Nonce) : SyncDB := ⟨UserDB.init nonce, .init, .init⟩

/-- `sendAdjacencyChange` and `fwdSub` (`fwd_sub`, `fwd_psub`) are the node's own changes.
`onMsg` is a change of the subscriptions of a peer, `recvBloom` is `_Z.BLM` or `bloom_rpy`,
`recvResultBloom` is the bloom of a message of `recv_adjacency_result`; `decoded` says that
`bloom.decode` takes it. -/
inductive Event where
  | users (e : UserDB.Event)
  | sendAdjacencyChange
  | fwdSub
  | onMsg (uid seqno : ℕ)
  | recvBloom (uid subSeqno : ℕ) (decoded : Bool)
  | recvResultBloom (uid subSeqno : ℕ) (decoded : Bool)

def authenticated (s : SyncDB) (uid : ℕ) : Bool := (s.db.bridgeTab uid).any (·.authenticated)

/-- The calls of `update_link_state_seqno`. -/
def linkUpdates (s : SyncDB) : Event → List (ℕ × ℕ)
  | .users e => s.db.linkUpdates e
  | .sendAdjacencyChange => [(0, s.links.val 0 + 1)]
  | _ => []

/-- The calls of `update_sub_seqno`. The messages of a peer that is not authenticated are
ignored. -/
def subUpdates (s : SyncDB) : Event → List (ℕ × ℕ)
  | .users (.removeAuthenticated uid _) => if (s.db.bridgeTab uid).isSome then [(uid, 0)] else []
  | .fwdSub => [(0, s.subs.val 0 + 1)]
  | .onMsg uid seqno =>
    if s.authenticated uid ∧ seqno = s.subs.val uid + 1 then [(uid, seqno)] else []
  | .recvBloom uid subSeqno decoded =>
    if s.authenticated uid ∧ s.subs.val uid ≤ subSeqno ∧ decoded then [(uid, subSeqno)] else []
  | .recvResultBloom uid subSeqno decoded =>
    -- `recv_bloom` compares once more
    if s.authenticated uid ∧ s.subs.val uid < subSeqno ∧ s.subs.val uid ≤ subSeqno ∧ decoded
    then [(uid, subSeqno)] else []
  | _ => []

def step (s : SyncDB) (e : Event) : SyncDB where
  db := match e with
    | .users e => s.db.step e
    | _ => s.db
  links := (s.linkUpdates e).foldl SeqnoBook.update s.links
  subs := (s.subUpdates e).foldl SeqnoBook.update s.subs

/-- `link_state_seqno`, of the bridge for a peer. -/
def linkStateSeqno (s : SyncDB) (uid : ℕ) : ℕ := (s.db.seqnos uid).getD (s.links.val uid)

/-- `sub_seqno` -/
def subSeqno (s : SyncDB) (uid : ℕ) : ℕ := s.subs.val uid

/-- This node, or a peer that is authenticated before and after. -/
def Stays (s : SyncDB) (e : Event) (uid : ℕ) : Prop :=
  uid = 0 ∨ (s.authenticated uid = true ∧ (s.step e).authenticated uid = true)

/-- What is recorded after an event is what was said, no number goes down, and the sums move by
the difference. -/
structure Exact (s : SyncDB) (e : Event) : Prop where
  link : (s.step e).linkStateSeqno = (s.step e).links.said
  sub : (s.step e).subSeqno = (s.step e).subs.said
  kept : ∀ uid, s.Stays e uid → s.linkStateSeqno uid ≤ (s.step e).linkStateSeqno uid ∧
    s.subSeqno uid ≤ (s.step e).subSeqno uid
  linkSum : SumMoves s.linkStateSeqno s.links.sum (s.step e).linkStateSeqno (s.step e).links.sum
  subSum : SumMoves s.subSeqno s.subs.sum (s.step e).subSeqno (s.step e).subs.sum

def NotOlder (s : SyncDB) : Event → Prop
  | .users e => s.db.NotOlder e
  | _ => True

/-- The numbers that are applied have 32 bits, and no link state goes back. -/
structure Fits (s : SyncDB) (e : Event) : Prop where
  links : ∀ u ∈ s.linkUpdates e, u.2 < 2 ^ 32
  subs : ∀ u ∈ s.subUpdates e, u.2 < 2 ^ 32
  notOlder : s.NotOlder e

instance (s : SyncDB) (e : Event) : Decidable (s.NotOlder e) :=
  match e with
  | .users e => inferInstanceAs (Decidable (s.db.NotOlder e))
  | .sendAdjacencyChange | .fwdSub | .onMsg _ _ | .recvBloom _ _ _ | .recvResultBloom _ _ _ =>
    .isTrue trivial

instance (s : SyncDB) (e : Event) : Decidable (s.Fits e) :=
  decidable_of_iff ((∀ u ∈ s.linkUpdates e, u.2 < 2 ^ 32) ∧ (∀ u ∈ s.subUpdates e, u.2 < 2 ^ 32) ∧
      s.NotOlder e)
    ⟨fun ⟨h1, h2, h3⟩ => ⟨h1, h2, h3⟩, fun h => ⟨h.links, h.subs, h.notOlder⟩⟩

/-- The bridges have the numbers of the book. -/
structure Inv (s : SyncDB) : Prop where
  pos : 0 < s.db.nextUid
  own : s.db.bridgeTab 0 = none
  fresh : ∀ uid, s.db.nextUid ≤ uid → s.db.bridgeTab uid = none
  agree : ∀ uid, uid ≠ 0 → s.links.val uid = (s.db.seqnos uid).getD 0
  links : s.links.val = s.links.said
  subs : s.subs.val = s.subs.said

theorem inv_init (nonce : Nonce) : Inv (init nonce) :=
  ⟨Nat.one_pos, rfl, fun _ _ => rfl, fun _ _ => rfl, rfl, rfl⟩

theorem Inv.linkStateSeqno_eq {s : SyncDB} (h : s.Inv) : s.linkStateSeqno = s.links.val := by
  funext uid
  unfold linkStateSeqno
  cases hnum : s.db.seqnos uid with
  | none => rfl
  | some v =>
    have hne : uid ≠ 0 := by
      rintro rfl
      simp [UserDB.seqnos, UserDB.tabSeqnos, h.own] at hnum
    rw [h.agree uid hne, hnum]
    rfl

theorem Inv.bridge {s : SyncDB} (h : s.Inv) {uid : ℕ} {n : UserBridge}
    (hn : s.db.bridgeTab uid = some n) : s.links.val uid = n.linkStateSeqno := by
  rw [← h.linkStateSeqno_eq, linkStateSeqno, UserDB.seqnos, UserDB.tabSeqnos, hn]
  rfl

/-- The book and the bridges are written together. -/
theorem agree_foldl {us : List (ℕ × ℕ)} {b : SeqnoBook} {val : ℕ → Option ℕ}
    (hval : ∀ uid, uid ≠ 0 → b.val uid = (val uid).getD 0)
    (hus : ∀ u ∈ us, (val u.1).isSome) (uid : ℕ) (hne : uid ≠ 0) :
    (us.foldl SeqnoBook.update b).val uid = (us.foldl UserDB.record val uid).getD 0 := by
  induction us generalizing b val with
  | nil => exact hval uid hne
  | cons u us ih =>
    rw [List.forall_mem_cons] at hus
    apply ih
    · intro v hv
      rcases eq_or_ne v u.1 with rfl | hvu
      · obtain ⟨w, hw⟩ := Option.isSome_iff_exists.mp hus.1
        simp [UserDB.record, hw]
      · rw [b.val_update_of_ne hvu, UserDB.record, Function.update_of_ne hvu]
        exact hval v hv
    · intro u' hu'
      have hsome := hus.2 u' hu'
      rw [Option.isSome_iff_ne_none] at hsome ⊢
      exact fun h => hsome ((UserDB.record_eq_none val u u'.1).mp h)

theorem seqnos_eq_none {db : UserDB} {uid : ℕ} : db.seqnos uid = none ↔ db.bridgeTab uid = none :=
  Option.map_eq_none_iff

/-- An event of `UserDB` other than a new user. -/
theorem Inv.users {s : SyncDB} (h : s.Inv) {e : UserDB.Event} (hfits : s.Fits (.users e))
    (hnew : ∀ nonce, e ≠ .addUser nonce) : (s.step (.users e)).Inv := by
  have hseq : (s.db.step e).seqnos = (s.db.linkUpdates e).foldl UserDB.record s.db.seqnos :=
    s.db.seqnos_step e hnew
  have hnone : ∀ uid, (s.db.step e).bridgeTab uid = none ↔ s.db.bridgeTab uid = none := by
    intro uid
    rw [← seqnos_eq_none, hseq, UserDB.foldl_record_eq_none, seqnos_eq_none]
  refine ⟨?_, (hnone 0).mpr h.own, ?_, ?_, SeqnoBook.val_eq_said h.links hfits.links,
    SeqnoBook.val_eq_said h.subs hfits.subs⟩
  · show 0 < (s.db.step e).nextUid
    rw [s.db.nextUid_step e hnew]
    exact h.pos
  · intro uid hle
    change (s.db.step e).nextUid ≤ uid at hle
    rw [s.db.nextUid_step e hnew] at hle
    exact (hnone uid).mpr (h.fresh uid hle)
  · intro uid hne
    show _ = ((s.db.step e).seqnos uid).getD 0
    rw [hseq]
    apply agree_foldl h.agree _ uid hne
    intro u hu
    rw [Option.isSome_iff_ne_none, Ne, seqnos_eq_none, ← Ne, ← Option.isSome_iff_ne_none]
    exact s.db.isSome_of_mem_linkUpdates hu

theorem Inv.addUser {s : SyncDB} (h : s.Inv) (nonce : Nonce) :
    (s.step (.users (.addUser nonce))).Inv := by
  have htab : (s.db.addUser nonce).bridgeTab =
      Function.update s.db.bridgeTab s.db.nextUid (some (.new nonce)) := rfl
  refine ⟨Nat.succ_pos _, ?_, ?_, ?_, h.links, h.subs⟩
  · show (s.db.addUser nonce).bridgeTab 0 = none
    rw [htab, Function.update_of_ne h.pos.ne]
    exact h.own
  · intro uid hle
    change s.db.nextUid + 1 ≤ uid at hle
    show (s.db.addUser nonce).bridgeTab uid = none
    rw [htab, Function.update_of_ne (Nat.ne_of_gt hle)]
    exact h.fresh uid (Nat.le_of_succ_le hle)
  · intro uid hne
    show s.links.val uid = (UserDB.tabSeqnos (s.db.addUser nonce).bridgeTab uid).getD 0
    rw [htab, UserDB.tabSeqnos_update, h.agree uid hne]
    rcases eq_or_ne uid s.db.nextUid with rfl | hu
    · rw [Function.update_self, seqnos_eq_none.mpr (h.fresh _ (Nat.le_refl _))]
      rfl
    · rw [Function.update_of_ne hu]
      rfl

/-- An event that is not of `UserDB` writes the node's own link state number only. -/
theorem Inv.of_own {s : SyncDB} (h : s.Inv) {e : Event} (hfits : s.Fits e)
    (hdb : (s.step e).db = s.db) (hown : ∀ u ∈ s.linkUpdates e, u.1 = 0) : (s.step e).Inv := by
  refine ⟨hdb ▸ h.pos, hdb ▸ h.own, hdb ▸ h.fresh, ?_, SeqnoBook.val_eq_said h.links hfits.links,
    SeqnoBook.val_eq_said h.subs hfits.subs⟩
  intro uid hne
  rw [hdb, ← h.agree uid hne]
  show ((s.linkUpdates e).foldl SeqnoBook.update s.links).val uid = s.links.val uid
  generalize s.linkUpdates e = us at hown
  generalize s.links = b
  induction us generalizing b with
  | nil => rfl
  | cons u us ih =>
    rw [List.forall_mem_cons] at hown
    rw [List.foldl_cons, ih hown.2, b.val_update_of_ne (hown.1 ▸ hne)]

theorem Inv.step {s : SyncDB} (h : s.Inv) {e : Event} (hfits : s.Fits e) : (s.step e).Inv := by
  cases e with
  | users e =>
    by_cases hnew : ∃ nonce, e = .addUser nonce
    · obtain ⟨nonce, rfl⟩ := hnew
      exact h.addUser nonce
    · exact h.users hfits fun nonce he => hnew ⟨nonce, he⟩
  | sendAdjacencyChange => exact h.of_own hfits rfl (by simp [linkUpdates])
  | fwdSub => exact h.of_own hfits rfl (by simp [linkUpdates])
  | onMsg uid seqno => exact h.of_own hfits rfl (by simp [linkUpdates])
  | recvBloom uid subSeqno decoded => exact h.of_own hfits rfl (by simp [linkUpdates])
  | recvResultBloom uid subSeqno decoded => exact h.of_own hfits rfl (by simp [linkUpdates])

/-! ## No number goes down -/

theorem Inv.rises_linkUpdates {s : SyncDB} (h : s.Inv) {e : Event} (hold : s.NotOlder e)
    (hstays : ∀ uid stage, e ≠ .users (.removeAuthenticated uid stage)) :
    SeqnoBook.Rises s.links.val (s.linkUpdates e) := by
  cases e with
  | users e =>
    apply s.db.rises_linkUpdates (fun uid n hn => h.bridge hn) hold
    intro uid stage he
    exact hstays uid stage (congrArg Event.users he)
  | sendAdjacencyChange => exact ⟨Nat.le_succ _, trivial⟩
  | fwdSub => trivial
  | onMsg uid seqno => trivial
  | recvBloom uid subSeqno decoded => trivial
  | recvResultBloom uid subSeqno decoded => trivial

theorem rises_subUpdates {s : SyncDB} {e : Event}
    (hstays : ∀ uid stage, e ≠ .users (.removeAuthenticated uid stage)) :
    SeqnoBook.Rises s.subs.val (s.subUpdates e) := by
  cases e with
  | users e =>
    cases e with
    | removeAuthenticated uid stage => exact absurd rfl (hstays uid stage)
    | addUser nonce => trivial
    | addAuthenticated uid => trivial
    | recvAdjacencyChange uid linkState recs => trivial
    | recvAdjacencyResult uid linkState recs reas quiet => trivial
    | byePeer nonce => trivial
    | processUnknownAdjacency now => trivial
  | sendAdjacencyChange => trivial
  | fwdSub => exact ⟨Nat.le_succ _, trivial⟩
  | onMsg uid seqno =>
    rw [subUpdates]
    split
    · next hnext => exact ⟨hnext.2 ▸ Nat.le_succ _, trivial⟩
    · trivial
  | recvBloom uid subSeqno decoded =>
    rw [subUpdates]
    split
    · next hle => exact ⟨hle.2.1, trivial⟩
    · trivial
  | recvResultBloom uid subSeqno decoded =>
    rw [subUpdates]
    split
    · next hlt => exact ⟨hlt.2.2.1, trivial⟩
    · trivial

/-- A peer that departs is not authenticated. -/
theorem not_authenticated_of_removed (s : SyncDB) (uid : ℕ) (stage : Bye) :
    (s.step (.users (.removeAuthenticated uid stage))).authenticated uid = false := by
  show ((s.db.removeAuthenticated uid stage).bridgeTab uid).any (·.authenticated) = false
  unfold UserDB.removeAuthenticated
  cases hn : s.db.bridgeTab uid with
  | none => simp [hn]
  | some n =>
    simp only
    rw [UserDB.bridgeTab_modifyBridge_self, Option.any_map]
    split <;> cases (UserDB.bridgeTab _ uid) <;> rfl

/-- A departure leaves the other numbers. -/
theorem val_of_removed {uid v : ℕ} {present : Bool} (h : uid = v → present = false)
    (b : SeqnoBook) :
    ((if present then [(v, 0)] else []).foldl SeqnoBook.update b).val uid = b.val uid := by
  cases present with
  | false => rfl
  | true => exact b.val_update_of_ne fun heq => Bool.noConfusion (h heq)

theorem Inv.kept {s : SyncDB} (h : s.Inv) {e : Event} (hfits : s.Fits e) {uid : ℕ}
    (hstays : s.Stays e uid) :
    s.links.val uid ≤ (s.step e).links.val uid ∧ s.subs.val uid ≤ (s.step e).subs.val uid := by
  by_cases hremove : ∃ v stage, e = .users (.removeAuthenticated v stage)
  · obtain ⟨v, stage, rfl⟩ := hremove
    have hother : uid = v → (s.db.bridgeTab v).isSome = false := by
      rintro rfl
      rcases hstays with rfl | ⟨-, hauth⟩
      · -- this node has no bridge
        rw [h.own]
        rfl
      · rw [not_authenticated_of_removed] at hauth
        cases hauth
    exact ⟨(val_of_removed hother _).ge, (val_of_removed hother _).ge⟩
  · have hnot : ∀ v stage, e ≠ .users (.removeAuthenticated v stage) :=
      fun v stage he => hremove ⟨v, stage, he⟩
    exact ⟨SeqnoBook.val_le (h.rises_linkUpdates hfits.notOlder hnot) hfits.links uid,
      SeqnoBook.val_le (rises_subUpdates hnot) hfits.subs uid⟩

theorem Inv.exact {s : SyncDB} (h : s.Inv) {e : Event} (hfits : s.Fits e) : s.Exact e := by
  have h' := h.step hfits
  constructor
  · rw [h'.linkStateSeqno_eq]
    exact h'.links
  · exact h'.subs
  · intro uid hstays
    rw [h.linkStateSeqno_eq, h'.linkStateSeqno_eq]
    exact h.kept hfits hstays
  · rw [h.linkStateSeqno_eq, h'.linkStateSeqno_eq]
    exact s.links.sumMoves_foldl (s.linkUpdates e)
  · exact s.subs.sumMoves_foldl (s.subUpdates e)

/-- **In every run, what is recorded is what was said, as long as it fits.** -/
theorem recorded_exact (nonce : Nonce) (es : List Event)
    (h : Run.AllOk step Fits (init nonce) es) : Run.AllOk step Exact (init nonce) es :=
  h.imp_of_invariant (fun (s : SyncDB) _ (hinv : s.Inv) hok => hinv.step hok)
    (fun _ _ hinv hok => hinv.exact hok) (inv_init nonce)

/-- A peer comes, changes, is asked for its link state, and goes. -/
def onePeer : List Event :=
  [.users (.addUser 7), .users (.addAuthenticated 1), .onMsg 1 1, .fwdSub,
    .users (.recvAdjacencyChange 1 1 []), .recvBloom 1 9 true, .onMsg 1 10, .sendAdjacencyChange,
    .users (.recvAdjacencyResult 1 5 [] .dijkstraNull true), .recvResultBloom 1 12 true,
    .users (.removeAuthenticated 1 .byeBye)]

theorem recorded_exact_onePeer :
    Run.AllOk step Fits (init 3) onePeer ∧ Run.AllOk step Exact (init 3) onePeer :=
  have h : Run.AllOk step Fits (init 3) onePeer := by decide
  ⟨h, recorded_exact 3 onePeer h⟩

/-- A bloom of number 2^32 is recorded as 0, and a link state of number 3 is taken after the
one of number 5. -/
theorem recorded_truncated :
    ¬ (∀ nonce es, Run.AllOk step Exact (init nonce) es) ∧
      (let es : List Event :=
        [.users (.addUser 7), .users (.addAuthenticated 1),
          .users (.recvAdjacencyResult 1 5 [] .other true),
          .users (.recvAdjacencyResult 1 3 [] .dijkstraNull true)]
      ((es.take 3).foldl step (init 3)).linkStateSeqno 1 = 5 ∧
        (es.foldl step (init 3)).linkStateSeqno 1 = 3) := by
  refine ⟨fun h => ?_, by decide, by decide⟩
  have hrun := h 3 [.users (.addUser 7), .users (.addAuthenticated 1), .recvBloom 1 (2 ^ 32) true]
  have hsub := congrFun hrun.2.2.1.sub 1
  revert hsub
  decide

end SyncDB

end Raims
