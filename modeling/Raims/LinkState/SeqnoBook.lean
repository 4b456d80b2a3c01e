import Raims.LinkState.Pending
import Raims.Lib.Run
import Mathlib.Algebra.BigOperators.Group.Finset.Basic
import Mathlib.Data.BitVec
import Mathlib.Tactic.Abel

/-!
# The sequence numbers that a node records (`update_sub_seqno`, `update_link_state_seqno`)

A node records the number of the last subscription change and of the last link state of
each peer, next to its own, and keeps the sum of each kind to compare with the sums of the
peers. One setter for each kind is called on every way that a number comes in: a change, a
bloom, a link state that was asked for, a link state whose records had to wait, and a
departure. The numbers have 64 bits on the wire and in the state. The setters take 32.
-/

namespace Raims

/-- The numbers of one kind by uid, this node's own at 0, and their sum. `said` is not in the
source: it has the numbers as the setter's caller had them. -/
structure SeqnoBook where
  val : ℕ → ℕ
  sum : BitVec 64
  said : ℕ → ℕ

namespace SeqnoBook

def init : SeqnoBook := ⟨fun _ => 0, 0, fun _ => 0⟩

/-- `update_sub_seqno( old_val, new_val )` and `update_link_state_seqno( old_val, new_val )`:
`new_val` is a `uint32_t`. -/
def update (b : SeqnoBook) (u : ℕ × ℕ) : SeqnoBook :=
  { val := Function.update b.val u.1 (u.2 % 2 ^ 32)
    sum := b.sum - BitVec.ofNat 64 (b.val u.1) + BitVec.ofNat 64 (u.2 % 2 ^ 32)
    said := Function.update b.said u.1 u.2 }

@[simp] theorem val_update_self (b : SeqnoBook) (u : ℕ × ℕ) :
    (b.update u).val u.1 = u.2 % 2 ^ 32 := Function.update_self _ _ _

theorem val_update_of_ne (b : SeqnoBook) {u : ℕ × ℕ} {uid : ℕ} (h : uid ≠ u.1) :
    (b.update u).val uid = b.val uid := Function.update_of_ne h _ _

/-- From `val` and `sum` to `val'` and `sum'` the sum moves by the difference of the numbers. -/
def SumMoves (val : ℕ → ℕ) (sum : BitVec 64) (val' : ℕ → ℕ) (sum' : BitVec 64) : Prop :=
  ∃ uids : Finset ℕ, (∀ uid ∉ uids, val' uid = val uid) ∧
    sum' = sum + ∑ uid ∈ uids, (BitVec.ofNat 64 (val' uid) - BitVec.ofNat 64 (val uid))

/-- Each number of the list is no lower than the one that it takes the place of. -/
def Rises : (ℕ → ℕ) → List (ℕ × ℕ) → Prop
  | _, [] => True
  | val, u :: us => val u.1 ≤ u.2 ∧ Rises (Function.update val u.1 (u.2 % 2 ^ 32)) us

theorem SumMoves.refl (val : ℕ → ℕ) (sum : BitVec 64) : SumMoves val sum val sum := by
  refine ⟨∅, fun _ _ => rfl, ?_⟩
  rw [Finset.sum_empty, add_zero]

theorem SumMoves.update {b b' : SeqnoBook} (h : SumMoves b.val b.sum b'.val b'.sum) (u : ℕ × ℕ) :
    SumMoves b.val b.sum (b'.update u).val (b'.update u).sum := by
  obtain ⟨uids, hout, hsum⟩ := h
  refine ⟨insert u.1 uids, ?_, ?_⟩
  · intro uid hnot
    rw [Finset.mem_insert, not_or] at hnot
    rw [val_update_of_ne _ hnot.1]
    exact hout uid hnot.2
  · -- over the larger set the old sum is the same, and one term of it changes
    have hold : b'.sum = b.sum + ∑ uid ∈ insert u.1 uids,
        (BitVec.ofNat 64 (b'.val uid) - BitVec.ofNat 64 (b.val uid)) := by
      rw [hsum]
      congr 1
      apply Finset.sum_subset (Finset.subset_insert _ _)
      intro uid _ hnot
      rw [hout uid hnot, sub_self]
    have hmem : u.1 ∈ insert u.1 uids := Finset.mem_insert_self _ _
    have hrest : ∑ uid ∈ (insert u.1 uids).erase u.1,
        (BitVec.ofNat 64 ((b'.update u).val uid) - BitVec.ofNat 64 (b.val uid)) =
        ∑ uid ∈ (insert u.1 uids).erase u.1,
          (BitVec.ofNat 64 (b'.val uid) - BitVec.ofNat 64 (b.val uid)) := by
      apply Finset.sum_congr rfl
      intro uid huid
      rw [val_update_of_ne _ (Finset.ne_of_mem_erase huid)]
    rw [← Finset.add_sum_erase _ _ hmem, hrest]
    rw [← Finset.add_sum_erase _ _ hmem] at hold
    rw [val_update_self]
    show b'.sum - _ + _ = _
    rw [hold]
    abel

theorem SumMoves.foldl {b b' : SeqnoBook} (h : SumMoves b.val b.sum b'.val b'.sum)
    (us : List (ℕ × ℕ)) :
    SumMoves b.val b.sum (us.foldl SeqnoBook.update b').val (us.foldl SeqnoBook.update b').sum := by
  induction us generalizing b' with
  | nil => exact h
  | cons u us ih => exact ih (h.update u)

theorem sumMoves_foldl (b : SeqnoBook) (us : List (ℕ × ℕ)) :
    SumMoves b.val b.sum (us.foldl update b).val (us.foldl update b).sum :=
  (SumMoves.refl b.val b.sum).foldl us

/-- Numbers of 32 bits are recorded as they are. -/
theorem val_eq_said {b : SeqnoBook} (h : b.val = b.said) {us : List (ℕ × ℕ)}
    (hfit : ∀ u ∈ us, u.2 < 2 ^ 32) :
    (us.foldl update b).val = (us.foldl update b).said := by
  induction us generalizing b with
  | nil => exact h
  | cons u us ih =>
    rw [List.forall_mem_cons] at hfit
    apply ih _ hfit.2
    simp only [update]
    rw [h, Nat.mod_eq_of_lt hfit.1]

theorem val_le {b : SeqnoBook} {us : List (ℕ × ℕ)} (hrise : Rises b.val us)
    (hfit : ∀ u ∈ us, u.2 < 2 ^ 32) (uid : ℕ) : b.val uid ≤ (us.foldl update b).val uid := by
  induction us generalizing b with
  | nil => exact le_refl _
  | cons u us ih =>
    rw [List.forall_mem_cons] at hfit
    apply le_trans _ (ih (b := b.update u) hrise.2 hfit.2)
    rcases eq_or_ne uid u.1 with rfl | hne
    · rw [val_update_self, Nat.mod_eq_of_lt hfit.1]
      exact hrise.1
    · rw [val_update_of_ne _ hne]

end SeqnoBook

/-! ## The link states -/

namespace UserBridge

/-- The entry `p` has no record left to wait for, once `nonce` has a user: then its link state
is the peer's. -/
def synced (find : UidTable) (uid : ℕ) (known : Bool) (nonce : Nonce) (m : UserBridge)
    (p : AdjPending) : Bool :=
  m.authenticated ∧ m.linkStateSeqno < p.linkStateSeqno ∧ m.unknownLinkSeqno = p.linkStateSeqno ∧
    known ∧ (m.replayRecs find uid nonce p.recList p.recCount []).2.1 = 0

theorem linkStateSeqno_addAdjacencyChange (find : UidTable) (uid : ℕ) (n : UserBridge)
    (rec : AdjacencyRec) :
    (n.addAdjacencyChange find uid rec).1.linkStateSeqno = n.linkStateSeqno := rfl

theorem linkStateSeqno_applyAdjacencyChange (find : UidTable) (uid : ℕ) (n : UserBridge)
    (recs : List AdjacencyRec) :
    (n.applyAdjacencyChange find uid recs).1.linkStateSeqno = n.linkStateSeqno := by
  induction recs generalizing n with
  | nil => rfl
  | cons rec recs ih =>
    unfold applyAdjacencyChange
    simp only
    split
    · rw [ih, linkStateSeqno_addAdjacencyChange]
    · rw [ih]
      rfl

theorem linkStateSeqno_replayRecs (find : UidTable) (uid : ℕ) (nonce : Nonce)
    (recs : List AdjacencyRec) (m : UserBridge) (count : ℕ) (pend : List AdjacencyRec) :
    (m.replayRecs find uid nonce recs count pend).1.linkStateSeqno = m.linkStateSeqno := by
  induction recs generalizing m count pend with
  | nil => rfl
  | cons rec recs ih =>
    unfold replayRecs
    simp only
    split
    · split
      · split
        · rfl
        · rw [ih, linkStateSeqno_addAdjacencyChange]
      · rw [ih, linkStateSeqno_addAdjacencyChange]
    · exact ih m count _

theorem linkStateSeqno_replayPending (find : UidTable) (uid : ℕ) (known : Bool) (nonce : Nonce)
    (m : UserBridge) (p : AdjPending) :
    (m.replayPending find uid known nonce p).1.linkStateSeqno =
      if m.synced find uid known nonce p then p.linkStateSeqno % 2 ^ 32 else m.linkStateSeqno := by
  unfold replayPending synced
  split
  · next h =>
      rw [if_neg]
      · rfl
      · intro hs
        rw [decide_eq_true_eq] at hs
        rcases h with h | h | h
        · exact h hs.1
        · exact absurd hs.2.1 (Nat.not_lt.mpr h)
        · exact h hs.2.2.1
  · next h =>
      simp only [not_or, not_not, Nat.not_le] at h
      cases known with
      | true =>
        simp only [if_true]
        split
        · next hleft => rw [if_pos (by simp [h, hleft])]; rfl
        · next hleft =>
            rw [if_neg (by simp [hleft])]
            exact linkStateSeqno_replayRecs find uid nonce _ m _ _
      | false =>
        simp only [Bool.false_eq_true, if_false, false_and, and_false, decide_false]
        split <;> rfl

end UserBridge

namespace UserDB

/-- The calls of `update_link_state_seqno` in `add_unknown_adjacency`. -/
def replayUpdates (find : UidTable) (known : Bool) (nonce : Nonce) :
    (ℕ → Option UserBridge) → List AdjPending → List (ℕ × ℕ)
  | _, [] => []
  | tab, p :: ps =>
    match tab p.uid with
    | none => replayUpdates find known nonce tab ps
    | some m =>
      let rest := replayUpdates find known nonce
        (Function.update tab p.uid (some (m.replayPending find p.uid known nonce p).1)) ps
      if m.synced find p.uid known nonce p then (p.uid, p.linkStateSeqno) :: rest else rest

/-- All its records are known, so that the number of a change is the peer's. -/
def completes (db : UserDB) (uid : ℕ) (n : UserBridge) (recs : List AdjacencyRec) : Bool :=
  (n.applyAdjacencyChange db.find uid recs).1.unknownAdjRefs = 0

/-- The calls of `update_link_state_seqno`, of a uid and a number, that an event makes. -/
def linkUpdates (db : UserDB) : Event → List (ℕ × ℕ)
  | .addUser _ | .processUnknownAdjacency _ => []
  | .byePeer nonce => replayUpdates db.find false nonce db.bridgeTab db.adjacencyUnknown
  | .addAuthenticated uid =>
    match db.bridgeTab uid with
    | none => []
    | some n =>
      let db := db.setAuthenticated uid n
      replayUpdates db.find true n.nonce db.bridgeTab db.adjacencyUnknown
  | .removeAuthenticated uid _ => if (db.bridgeTab uid).isSome then [(uid, 0)] else []
  | .recvAdjacencyChange uid linkState recs =>
    match db.bridgeTab uid with
    | none => []
    | some n =>
      if linkState = n.linkStateSeqno + 1 ∧ db.completes uid n recs then [(uid, linkState)]
      else []
  | .recvAdjacencyResult uid linkState recs reas _ =>
    match db.bridgeTab uid, (db.dropUnknown uid).bridgeTab uid with
    | some n, some n' =>
      if TakesResult n linkState reas ∧
          (db.dropUnknown uid).completes uid (zeroAdjacency n') recs then [(uid, linkState)]
      else []
    | _, _ => []

/-- The link state numbers of the peers. -/
def tabSeqnos (tab : ℕ → Option UserBridge) (uid : ℕ) : Option ℕ :=
  (tab uid).map UserBridge.linkStateSeqno

def seqnos (db : UserDB) : ℕ → Option ℕ := tabSeqnos db.bridgeTab

/-- What the setter does to the numbers in the bridges. -/
def record (val : ℕ → Option ℕ) (u : ℕ × ℕ) : ℕ → Option ℕ :=
  Function.update val u.1 ((val u.1).map fun _ => u.2 % 2 ^ 32)

theorem record_eq_none (val : ℕ → Option ℕ) (u : ℕ × ℕ) (uid : ℕ) :
    record val u uid = none ↔ val uid = none := by
  rcases eq_or_ne uid u.1 with rfl | hne
  · simp [record]
  · simp [record, hne]

theorem foldl_record_eq_none (val : ℕ → Option ℕ) (us : List (ℕ × ℕ)) (uid : ℕ) :
    us.foldl record val uid = none ↔ val uid = none := by
  induction us generalizing val with
  | nil => exact Iff.rfl
  | cons u us ih => exact (ih _).trans (record_eq_none val u uid)

theorem tabSeqnos_update (tab : ℕ → Option UserBridge) (uid : ℕ) (n : UserBridge) :
    tabSeqnos (Function.update tab uid (some n)) =
      Function.update (tabSeqnos tab) uid (some n.linkStateSeqno) := by
  funext v
  rcases eq_or_ne v uid with rfl | hne
  · simp [tabSeqnos]
  · simp [tabSeqnos, hne]

theorem tabSeqnos_update_of_eq {tab : ℕ → Option UserBridge} {uid : ℕ} {m n : UserBridge}
    (hm : tab uid = some m) (h : n.linkStateSeqno = m.linkStateSeqno) :
    tabSeqnos (Function.update tab uid (some n)) = tabSeqnos tab := by
  rw [tabSeqnos_update, h]
  apply Function.update_eq_self_iff.mpr
  rw [tabSeqnos, hm]
  rfl

/-- A write that leaves the number of the bridge. -/
theorem seqnos_modifyBridge (db : UserDB) {uid : ℕ} {f : UserBridge → UserBridge}
    (h : ∀ n, db.bridgeTab uid = some n → (f n).linkStateSeqno = n.linkStateSeqno) :
    (db.modifyBridge uid f).seqnos = db.seqnos := by
  funext v
  rcases eq_or_ne v uid with rfl | hne
  · simp only [seqnos, tabSeqnos, bridgeTab_modifyBridge_self]
    cases hn : db.bridgeTab v with
    | none => rfl
    | some n => exact congrArg some (h n hn)
  · simp only [seqnos, tabSeqnos, bridgeTab_modifyBridge_ne db f hne]

theorem seqnos_updateLinkStateSeqno (db : UserDB) (uid linkState : ℕ) :
    (db.modifyBridge uid fun n => n.updateLinkStateSeqno linkState).seqnos =
      record db.seqnos (uid, linkState) := by
  funext v
  rcases eq_or_ne v uid with rfl | hne
  · simp only [seqnos, tabSeqnos, record, bridgeTab_modifyBridge_self, Function.update_self,
      Option.map_map]
    rfl
  · simp only [seqnos, tabSeqnos, record, bridgeTab_modifyBridge_ne db _ hne,
      Function.update_of_ne hne]

theorem seqnos_save (db : UserDB) (uid seqno : ℕ) (recs : List AdjacencyRec) (b : Bool) :
    (db.saveUnknownAdjacency uid seqno recs b).seqnos = db.seqnos :=
  seqnos_modifyBridge db fun _ _ => rfl

theorem seqnos_clearUnknownAdjacency (db : UserDB) (uid : ℕ) :
    (db.clearUnknownAdjacency uid).seqnos = db.seqnos :=
  seqnos_modifyBridge db fun _ _ => rfl

theorem seqnos_dropUnknown (db : UserDB) (uid : ℕ) : (db.dropUnknown uid).seqnos = db.seqnos := by
  unfold dropUnknown
  split
  · rfl
  · split
    · exact seqnos_clearUnknownAdjacency db uid
    · rfl

/-! ### One event -/

section Steps

variable (db : UserDB)

theorem replayStep_none {find : UidTable} {known : Bool} {nonce : Nonce}
    {s : (ℕ → Option UserBridge) × List AdjPending} {p : AdjPending} (h : s.1 p.uid = none) :
    replayStep find known nonce s p = s := by
  rw [replayStep, h]

theorem replayStep_some {find : UidTable} {known : Bool} {nonce : Nonce}
    {s : (ℕ → Option UserBridge) × List AdjPending} {p : AdjPending} {m : UserBridge}
    (h : s.1 p.uid = some m) :
    replayStep find known nonce s p =
      (Function.update s.1 p.uid (some (m.replayPending find p.uid known nonce p).1),
        s.2 ++ (m.replayPending find p.uid known nonce p).2.toList) := by
  rw [replayStep, h]

theorem seqnos_foldl_replayStep (find : UidTable) (known : Bool) (nonce : Nonce)
    (ps : List AdjPending) (tab : ℕ → Option UserBridge) (kept : List AdjPending) :
    tabSeqnos (ps.foldl (replayStep find known nonce) (tab, kept)).1 =
      (replayUpdates find known nonce tab ps).foldl record (tabSeqnos tab) := by
  induction ps generalizing tab kept with
  | nil => rfl
  | cons p ps ih =>
    rw [List.foldl_cons, replayUpdates]
    cases hm : tab p.uid with
    | none =>
      rw [replayStep_none hm]
      exact ih tab kept
    | some m =>
      rw [replayStep_some hm, ih]
      have hnum := m.linkStateSeqno_replayPending find p.uid known nonce p
      simp only
      split
      · next hsync =>
          rw [if_pos hsync] at hnum
          have hrec : record (tabSeqnos tab) (p.uid, p.linkStateSeqno) =
              tabSeqnos (Function.update tab p.uid
                (some (m.replayPending find p.uid known nonce p).1)) := by
            rw [tabSeqnos_update, hnum, record]
            simp [tabSeqnos, hm]
          rw [List.foldl_cons, hrec]
      · next hsync =>
          rw [if_neg hsync] at hnum
          rw [tabSeqnos_update_of_eq hm hnum]

theorem seqnos_addUnknownAdjacency (known : Bool) (nonce : Nonce) :
    (db.addUnknownAdjacency known nonce).seqnos =
      (replayUpdates db.find known nonce db.bridgeTab db.adjacencyUnknown).foldl record db.seqnos :=
  seqnos_foldl_replayStep db.find known nonce db.adjacencyUnknown db.bridgeTab []

theorem seqnos_setAuthenticated (uid : ℕ) (n : UserBridge) :
    (db.setAuthenticated uid n).seqnos = db.seqnos :=
  seqnos_modifyBridge db fun _ _ => rfl

theorem seqnos_addAuthenticated (uid : ℕ) :
    (db.addAuthenticated uid).seqnos =
      (db.linkUpdates (.addAuthenticated uid)).foldl record db.seqnos := by
  unfold addAuthenticated
  rw [linkUpdates]
  cases hn : db.bridgeTab uid with
  | none => rfl
  | some n =>
    simp only
    rw [← seqnos_setAuthenticated db uid n, ← seqnos_addUnknownAdjacency]
    split
    · next hnil => rw [seqnos_addUnknownAdjacency, hnil]; rfl
    · rfl

theorem seqnos_removeAuthenticated (uid : ℕ) (stage : Bye) :
    (db.removeAuthenticated uid stage).seqnos =
      (db.linkUpdates (.removeAuthenticated uid stage)).foldl record db.seqnos := by
  unfold removeAuthenticated
  rw [linkUpdates]
  cases hn : db.bridgeTab uid with
  | none => rfl
  | some n =>
    simp only [Option.isSome_some, if_true, List.foldl_cons, List.foldl_nil]
    have hcleared : ∀ db' : UserDB, db'.seqnos = db.seqnos →
        (db'.modifyBridge uid fun n =>
          { n with
            authenticated := false
            zombie := true
            linkStateSeqno := 0
            uidCsum := 0
            adjacency := AdjacencyTab.empty }).seqnos = record db.seqnos (uid, 0) := by
      intro db' h
      rw [← h, ← seqnos_updateLinkStateSeqno db' uid 0]
      funext v
      rcases eq_or_ne v uid with rfl | hne
      · simp only [seqnos, tabSeqnos, bridgeTab_modifyBridge_self, Option.map_map]
        rfl
      · simp only [seqnos, tabSeqnos, bridgeTab_modifyBridge_ne _ _ hne]
    apply hcleared
    split
    · exact seqnos_clearUnknownAdjacency db uid
    · rfl

theorem seqnos_recvAdjacencyChange (uid linkState : ℕ) (recs : List AdjacencyRec) :
    (db.recvAdjacencyChange uid linkState recs).seqnos =
      (db.linkUpdates (.recvAdjacencyChange uid linkState recs)).foldl record db.seqnos := by
  unfold recvAdjacencyChange
  rw [linkUpdates]
  cases hn : db.bridgeTab uid with
  | none => rfl
  | some n =>
    simp only
    have happlied : (db.modifyBridge uid fun _ =>
        (n.applyAdjacencyChange db.find uid recs).1).seqnos = db.seqnos := by
      apply seqnos_modifyBridge
      intro n' hn'
      rw [n.linkStateSeqno_applyAdjacencyChange db.find uid recs,
        Option.some.inj (hn.symm.trans hn')]
    split
    · next hne =>
        have hnot : ¬ (linkState = n.linkStateSeqno + 1 ∧ db.completes uid n recs = true) :=
          fun h => hne h.1
        rw [if_neg hnot]
        split
        · rfl
        · split
          · rw [seqnos_save, happlied]
            rfl
          · rfl
    · next heq =>
        rw [not_not] at heq
        have hsaved : ∀ db' : UserDB, db' = (if (n.applyAdjacencyChange db.find uid recs).2 = []
            then db.modifyBridge uid fun _ => (n.applyAdjacencyChange db.find uid recs).1
            else (db.modifyBridge uid fun _ =>
              (n.applyAdjacencyChange db.find uid recs).1).saveUnknownAdjacency uid linkState
                (n.applyAdjacencyChange db.find uid recs).2 true) →
            db'.seqnos = db.seqnos := by
          rintro _ rfl
          split
          · exact happlied
          · rw [seqnos_save, happlied]
        split
        · next hzero =>
            rw [seqnos_updateLinkStateSeqno, hsaved _ rfl, if_pos ⟨heq, by simp [completes, hzero]⟩]
            rfl
        · next hzero =>
            rw [hsaved _ rfl, if_neg]
            · rfl
            · rintro ⟨-, h⟩
              exact hzero (by simpa [completes] using h)

theorem seqnos_recvAdjacencyResult (uid linkState : ℕ) (recs : List AdjacencyRec)
    (reas : AdjacencyRequest) (quiet : Bool) :
    (db.recvAdjacencyResult uid linkState recs reas quiet).seqnos =
      (db.linkUpdates (.recvAdjacencyResult uid linkState recs reas quiet)).foldl record
        db.seqnos := by
  unfold recvAdjacencyResult
  rw [linkUpdates]
  cases hn : db.bridgeTab uid with
  | none => rfl
  | some n =>
    simp only
    split
    · next htakes =>
        unfold replaceAdjacency
        simp only
        cases hn' : (db.dropUnknown uid).bridgeTab uid with
        | none => exact seqnos_dropUnknown db uid
        | some n' =>
          simp only
          have happlied : ((db.dropUnknown uid).modifyBridge uid fun _ =>
              { ((zeroAdjacency n').applyAdjacencyChange (db.dropUnknown uid).find uid
                recs).1 with nullSyncRes := 0 }).seqnos = db.seqnos := by
            rw [← seqnos_dropUnknown db uid]
            apply seqnos_modifyBridge
            intro m hm
            rw [← Option.some.inj (hn'.symm.trans hm)]
            exact (zeroAdjacency n').linkStateSeqno_applyAdjacencyChange _ uid recs
          split
          · next hzero =>
              rw [seqnos_updateLinkStateSeqno, happlied,
                if_pos ⟨htakes, by simpa [completes] using hzero⟩]
              rfl
          · next hzero =>
              have hnot : ¬ (TakesResult n linkState reas ∧
                  (db.dropUnknown uid).completes uid (zeroAdjacency n') recs = true) :=
                fun h => hzero (by simpa [completes] using h.2)
              rw [seqnos_save, happlied, if_neg hnot]
              rfl
    · next htakes =>
        have hnil : (match some n, (db.dropUnknown uid).bridgeTab uid with
            | some n, some n' =>
              if TakesResult n linkState reas ∧
                  (db.dropUnknown uid).completes uid (zeroAdjacency n') recs = true
              then [(uid, linkState)] else []
            | _, _ => []) = [] := by
          split
          · next n₁ _ h₁ _ =>
              rw [← Option.some.inj h₁, if_neg fun h => htakes h.1]
          · rfl
        rw [hnil]
        split
        · exact seqnos_modifyBridge _ fun _ _ => rfl
        · rfl

/-- **The calls of the setter are all that happens to the numbers of the peers that are
there.** -/
theorem seqnos_step (e : Event) (h : ∀ nonce, e ≠ .addUser nonce) :
    (db.step e).seqnos = (db.linkUpdates e).foldl record db.seqnos := by
  cases e with
  | addUser nonce => exact absurd rfl (h nonce)
  | addAuthenticated uid => exact seqnos_addAuthenticated db uid
  | removeAuthenticated uid stage => exact seqnos_removeAuthenticated db uid stage
  | recvAdjacencyChange uid linkState recs =>
    exact seqnos_recvAdjacencyChange db uid linkState recs
  | recvAdjacencyResult uid linkState recs reas quiet =>
    exact seqnos_recvAdjacencyResult db uid linkState recs reas quiet
  | byePeer nonce => exact seqnos_addUnknownAdjacency db false nonce
  | processUnknownAdjacency now => rfl

theorem nextUid_dropUnknown (uid : ℕ) : (db.dropUnknown uid).nextUid = db.nextUid := by
  unfold dropUnknown
  split
  · rfl
  · split <;> rfl

theorem nextUid_replaceAdjacency (uid linkState : ℕ) (recs : List AdjacencyRec) :
    (db.replaceAdjacency uid linkState recs).nextUid = db.nextUid := by
  rw [← nextUid_dropUnknown db uid]
  unfold replaceAdjacency
  simp only
  split
  · rfl
  · split <;> rfl

theorem nextUid_step (e : Event) (h : ∀ nonce, e ≠ .addUser nonce) :
    (db.step e).nextUid = db.nextUid := by
  cases e with
  | addUser nonce => exact absurd rfl (h nonce)
  | addAuthenticated uid =>
    show (db.addAuthenticated uid).nextUid = _
    unfold addAuthenticated
    split
    · rfl
    · simp only
      split <;> rfl
  | removeAuthenticated uid stage =>
    show (db.removeAuthenticated uid stage).nextUid = _
    unfold removeAuthenticated
    split
    · rfl
    · simp only
      split <;> rfl
  | recvAdjacencyChange uid linkState recs =>
    show (db.recvAdjacencyChange uid linkState recs).nextUid = _
    unfold recvAdjacencyChange
    split
    · rfl
    · simp only
      split
      · split
        · rfl
        · split <;> rfl
      · split <;> split <;> rfl
  | recvAdjacencyResult uid linkState recs reas quiet =>
    show (db.recvAdjacencyResult uid linkState recs reas quiet).nextUid = _
    unfold recvAdjacencyResult
    split
    · rfl
    · split
      · exact nextUid_replaceAdjacency db uid linkState recs
      · split <;> rfl
  | byePeer nonce => rfl
  | processUnknownAdjacency now => rfl

/-! ### The calls -/

theorem isSome_of_mem_replayUpdates {find : UidTable} {known : Bool} {nonce : Nonce}
    {ps : List AdjPending} {tab : ℕ → Option UserBridge} {u : ℕ × ℕ}
    (h : u ∈ replayUpdates find known nonce tab ps) : (tab u.1).isSome := by
  induction ps generalizing tab with
  | nil => cases h
  | cons p ps ih =>
    rw [replayUpdates] at h
    cases hm : tab p.uid with
    | none =>
      rw [hm] at h
      exact ih h
    | some m =>
      simp only [hm] at h
      have hrest : u ∈ replayUpdates find known nonce
          (Function.update tab p.uid (some (m.replayPending find p.uid known nonce p).1)) ps →
          (tab u.1).isSome := by
        intro hmem
        have hsome := ih hmem
        rcases eq_or_ne u.1 p.uid with heq | hne
        · rw [heq, hm]
          rfl
        · rwa [Function.update_of_ne hne] at hsome
      split at h
      · rcases List.mem_cons.mp h with rfl | hmem
        · rw [hm]
          rfl
        · exact hrest hmem
      · exact hrest h

/-- Only the numbers of peers that are there are set. -/
theorem isSome_of_mem_linkUpdates {e : Event} {u : ℕ × ℕ} (h : u ∈ db.linkUpdates e) :
    (db.bridgeTab u.1).isSome := by
  cases e with
  | addUser nonce => cases h
  | addAuthenticated uid =>
    rw [linkUpdates] at h
    cases hn : db.bridgeTab uid with
    | none => simp [hn] at h
    | some n =>
      simp only [hn] at h
      have hsome := isSome_of_mem_replayUpdates h
      rcases eq_or_ne u.1 uid with heq | hne
      · rw [heq, hn]
        rfl
      · have hsame : (db.setAuthenticated uid n).bridgeTab u.1 = db.bridgeTab u.1 :=
          bridgeTab_modifyBridge_ne db _ hne
        rwa [hsame] at hsome
  | removeAuthenticated uid stage =>
    rw [linkUpdates] at h
    split at h
    · next hsome => rwa [List.mem_singleton.mp h]
    · cases h
  | recvAdjacencyChange uid linkState recs =>
    rw [linkUpdates] at h
    split at h
    · cases h
    · next n hn =>
        split at h
        · rw [List.mem_singleton.mp h, hn]
          rfl
        · cases h
  | recvAdjacencyResult uid linkState recs reas quiet =>
    rw [linkUpdates] at h
    split at h
    · next n n' hn hn' =>
        split at h
        · rw [List.mem_singleton.mp h, hn]
          rfl
        · cases h
    · cases h
  | byePeer nonce => exact isSome_of_mem_replayUpdates h
  | processUnknownAdjacency now => cases h

/-- An entry that waited is never older than what its peer has. -/
theorem rises_replayUpdates {find : UidTable} {known : Bool} {nonce : Nonce}
    {ps : List AdjPending} {tab : ℕ → Option UserBridge} {val : ℕ → ℕ}
    (h : ∀ uid m, tab uid = some m → val uid = m.linkStateSeqno) :
    SeqnoBook.Rises val (replayUpdates find known nonce tab ps) := by
  induction ps generalizing tab val with
  | nil => trivial
  | cons p ps ih =>
    rw [replayUpdates]
    cases hm : tab p.uid with
    | none => exact ih h
    | some m =>
      have hnum := m.linkStateSeqno_replayPending find p.uid known nonce p
      simp only
      split
      · next hsync =>
          rw [if_pos hsync] at hnum
          refine ⟨?_, ih ?_⟩
          · rw [UserBridge.synced, decide_eq_true_eq] at hsync
            rw [h p.uid m hm]
            exact hsync.2.1.le
          · intro uid m' hm'
            rcases eq_or_ne uid p.uid with rfl | hne
            · rw [Function.update_self] at hm' ⊢
              rw [← Option.some.inj hm', hnum]
            · rw [Function.update_of_ne hne] at hm' ⊢
              exact h uid m' hm'
      · next hsync =>
          rw [if_neg hsync] at hnum
          apply ih
          intro uid m' hm'
          rcases eq_or_ne uid p.uid with rfl | hne
          · rw [Function.update_self] at hm'
            rw [← Option.some.inj hm', hnum]
            exact h p.uid m hm
          · rw [Function.update_of_ne hne] at hm'
            exact h uid m' hm'

/-- A link state that was asked for from the start is not older than what is recorded, when it
is taken with all its records. -/
def NotOlder : Event → Prop
  | .recvAdjacencyResult uid linkState recs .dijkstraNull quiet =>
    db.linkUpdates (.recvAdjacencyResult uid linkState recs .dijkstraNull quiet) ≠ [] →
      ((db.bridgeTab uid).all fun n => n.linkStateSeqno ≤ linkState) = true
  | _ => True

instance (e : Event) : Decidable (db.NotOlder e) :=
  match e with
  | .recvAdjacencyResult _ _ _ .dijkstraNull _ => inferInstanceAs (Decidable (_ → _))
  | .recvAdjacencyResult _ _ _ .dijkstraSync _ | .recvAdjacencyResult _ _ _ .other _
  | .addUser _ | .addAuthenticated _ | .removeAuthenticated _ _ | .recvAdjacencyChange _ _ _
  | .byePeer _ | .processUnknownAdjacency _ => .isTrue trivial

/-- A link state that is taken is newer, or the same, but for the one case. -/
theorem le_of_takesResult {n : UserBridge} {linkState : ℕ} {reas : AdjacencyRequest}
    (h : TakesResult n linkState reas) (hreas : reas ≠ .dijkstraNull) :
    n.linkStateSeqno ≤ linkState := by
  rcases h with h | h | h
  · exact h.le
  · exact h.2.ge
  · exact absurd h hreas

theorem rises_linkUpdates {e : Event} {val : ℕ → ℕ}
    (h : ∀ uid n, db.bridgeTab uid = some n → val uid = n.linkStateSeqno)
    (hold : db.NotOlder e) (hstays : ∀ uid stage, e ≠ .removeAuthenticated uid stage) :
    SeqnoBook.Rises val (db.linkUpdates e) := by
  cases e with
  | addUser nonce => trivial
  | addAuthenticated uid =>
    rw [linkUpdates]
    cases hn : db.bridgeTab uid with
    | none => trivial
    | some n =>
      apply rises_replayUpdates
      intro v m hm
      rcases eq_or_ne v uid with rfl | hne
      · have hself : (db.setAuthenticated v n).bridgeTab v =
            some { n with zombie := false, authenticated := true } := by
          refine (bridgeTab_modifyBridge_self db v _).trans ?_
          rw [hn]
          rfl
        rw [hself] at hm
        rw [← Option.some.inj hm]
        exact h v n hn
      · have hsame : (db.setAuthenticated uid n).bridgeTab v = db.bridgeTab v :=
          bridgeTab_modifyBridge_ne db _ hne
        exact h v m (hsame ▸ hm)
  | removeAuthenticated uid stage => exact absurd rfl (hstays uid stage)
  | recvAdjacencyChange uid linkState recs =>
    rw [linkUpdates]
    split
    · trivial
    · next n hn =>
        split
        · next hnext =>
            refine ⟨?_, trivial⟩
            show val uid ≤ linkState
            rw [h uid n hn, hnext.1]
            exact Nat.le_succ _
        · trivial
  | recvAdjacencyResult uid linkState recs reas quiet =>
    cases hus : db.linkUpdates (.recvAdjacencyResult uid linkState recs reas quiet) with
    | nil => trivial
    | cons u us =>
      have hne : db.linkUpdates (.recvAdjacencyResult uid linkState recs reas quiet) ≠ [] := by
        simp [hus]
      rw [linkUpdates] at hus
      split at hus
      · next n n' hn hn' =>
          split at hus
          · next htakes =>
              obtain ⟨rfl, rfl⟩ := List.cons.inj hus
              refine ⟨?_, trivial⟩
              show val uid ≤ linkState
              rw [h uid n hn]
              by_cases hreas : reas = .dijkstraNull
              · subst hreas
                have hall := hold hne
                rw [hn] at hall
                simpa using hall
              · exact le_of_takesResult htakes.1 hreas
          · cases hus
      · cases hus
  | byePeer nonce => exact rises_replayUpdates h
  | processUnknownAdjacency now => trivial

end Steps

end UserDB

end Raims
