import Mathlib.Algebra.BigOperators.Group.Finset.Piecewise
import Mathlib.Tactic.Tauto
import Raims.Lib.Run
import Raims.User.Members

/-!
# The summaries of the members

Every step but the arrival of a new user replaces one bridge by another with the
same bridge id. `Exchange` says by how much each summary has to move then; the
steps are shown to be exchanges, and the summaries hold in every run.
-/

namespace Raims

namespace MemberDB

/-! ## One bridge replaced by another -/

/-- The summaries of the authenticated peers move by the difference of `n` and `n'`. -/
structure AuthMoves (db : MemberDB) (uid : ℕ) (n n' : Member) (db' : MemberDB) : Prop where
  uidCsum : db'.uidCsum = db.uidCsum ^^^ n.csum ^^^ n'.csum
  uidAuthCount : db'.uidAuthCount + n.count .authenticated =
    db.uidAuthCount + n'.count .authenticated
  uidAuthenticated : db'.uidAuthenticated = if n'.isSet .authenticated
    then insert uid db.uidAuthenticated else db.uidAuthenticated.erase uid

/-- The tables name the bridge where its state says. -/
structure TableMoves (db : MemberDB) (uid : ℕ) (n n' : Member) (db' : MemberDB) : Prop where
  nodeHt : db'.nodeHt =
    Function.update db.nodeHt n.nonce (if n'.isSet .zombie then none else some uid)
  zombieHt : db'.zombieHt =
    Function.update db.zombieHt n.nonce (if n'.isSet .zombie then some uid else none)

/-- `db'` has the bridge `n'` of `uid` in place of `n`, and each summary moved by the
difference of the two. -/
structure Exchange (db : MemberDB) (uid : ℕ) (n n' : Member) (db' : MemberDB) : Prop
    extends AuthMoves db uid n n' db', TableMoves db uid n n' db' where
  nonce : n'.nonce = n.nonce
  bridgeTab : db'.bridgeTab = Function.update db.bridgeTab uid (some n')
  frame : db'.nonce = db.nonce ∧ db'.nextUid = db.nextUid ∧
    db'.linkStateSeqno = db.linkStateSeqno ∧ db'.subSeqno = db.subSeqno
  uidHbCount : db'.uidHbCount + n.count .hasHb = db.uidHbCount + n'.count .hasHb
  linkStateSum : db'.linkStateSum = db.linkStateSum - n.linkStateSeqno + n'.linkStateSeqno
  subSeqnoSum : db'.subSeqnoSum = db.subSeqnoSum - n.subSeqno + n'.subSeqno

section Exchange

variable {db db' : MemberDB} {uid : ℕ} {n n' : Member}

theorem inState_eq_insert_erase (h : db.bridgeTab uid = some n) (hlt : uid < db.nextUid)
    (s : UserNonceState) :
    db.inState s = if n.isSet s then insert uid ((db.inState s).erase uid)
      else (db.inState s).erase uid := by
  have hmem : uid ∈ db.inState s ↔ n.isSet s := by simp [inState, h, hlt]
  by_cases hs : n.isSet s
  · rw [if_pos hs, Finset.insert_erase (hmem.2 hs)]
  · rw [if_neg hs, Finset.erase_eq_of_notMem (fun hu => hs (hmem.1 hu))]

theorem card_inState (h : db.bridgeTab uid = some n) (hlt : uid < db.nextUid)
    (s : UserNonceState) :
    (db.inState s).card = n.count s + ((db.inState s).erase uid).card := by
  conv_lhs => rw [inState_eq_insert_erase h hlt s]
  unfold Member.count
  split
  · rw [Finset.card_insert_of_notMem (Finset.notMem_erase _ _), Nat.add_comm]
  · rw [Nat.zero_add]

theorem fold_inState (h : db.bridgeTab uid = some n) (hlt : uid < db.nextUid) :
    (db.inState .authenticated).fold (fun x y : Nonce => x ^^^ y) db.nonce db.nonceOf =
      n.csum ^^^ ((db.inState .authenticated).erase uid).fold (fun x y : Nonce => x ^^^ y)
        db.nonce db.nonceOf := by
  conv_lhs => rw [inState_eq_insert_erase h hlt .authenticated]
  unfold Member.csum
  split
  · rw [Finset.fold_insert (Finset.notMem_erase _ _)]
    simp only [nonceOf, h, Option.elim_some]
  · exact BitVec.zero_xor.symm

namespace Exchange

variable (hx : Exchange db uid n n' db')
include hx

theorem inState_erase (s : UserNonceState) :
    (db'.inState s).erase uid = (db.inState s).erase uid := by
  ext v
  simp only [inState, Finset.mem_erase, Finset.mem_filter, Finset.mem_range, hx.bridgeTab,
    hx.frame.2.1]
  refine and_congr_right fun hv => ?_
  rw [Function.update_of_ne hv]

theorem nonceOf_eq (h : db.bridgeTab uid = some n) : db'.nonceOf = db.nonceOf := by
  funext v
  unfold nonceOf
  rw [hx.bridgeTab]
  by_cases hv : v = uid
  · subst hv
    rw [Function.update_self, h, Option.elim_some, Option.elim_some, hx.nonce]
  · rw [Function.update_of_ne hv]

theorem linkStateSeqnoOf_eq :
    db'.linkStateSeqnoOf = Function.update db.linkStateSeqnoOf uid n'.linkStateSeqno := by
  funext v
  unfold linkStateSeqnoOf
  rw [hx.bridgeTab]
  by_cases hv : v = uid
  · subst hv
    rw [Function.update_self, Function.update_self, Option.elim_some]
  · rw [Function.update_of_ne hv, Function.update_of_ne hv]

theorem subSeqnoOf_eq :
    db'.subSeqnoOf = Function.update db.subSeqnoOf uid n'.subSeqno := by
  funext v
  unfold subSeqnoOf
  rw [hx.bridgeTab]
  by_cases hv : v = uid
  · subst hv
    rw [Function.update_self, Function.update_self, Option.elim_some]
  · rw [Function.update_of_ne hv, Function.update_of_ne hv]

end Exchange

theorem xor_exchange (a b r : Nonce) : (a ^^^ r) ^^^ a ^^^ b = b ^^^ r := by
  rw [BitVec.xor_comm a r, BitVec.xor_assoc r, BitVec.xor_self, BitVec.xor_zero,
    BitVec.xor_comm]

/-- One term of a sum replaced. -/
theorem sum_update {f : ℕ → BitVec 64} {k : ℕ} (hlt : uid < k) (v : BitVec 64) :
    ∑ i ∈ Finset.range k, Function.update f uid v i =
      ∑ i ∈ Finset.range k, f i - f uid + v := by
  have hmem : uid ∈ Finset.range k := Finset.mem_range.2 hlt
  rw [Finset.sum_update_of_mem hmem, Finset.sum_eq_add_sum_sdiff_singleton_of_mem hmem f,
    add_sub_cancel_left, add_comm]

/-- No other peer has the nonce of a peer. -/
theorem Inv.nonce_ne (h : Inv db) (hn : db.bridgeTab uid = some n) {v : ℕ} {m : Member}
    (hm : db.bridgeTab v = some m) (hv : v ≠ uid) : m.nonce ≠ n.nonce := by
  intro heq
  have hnode := h.nodeHt hn
  have hzombie := h.zombieHt hn
  rw [← heq, h.nodeHt hm] at hnode
  rw [← heq, h.zombieHt hm] at hzombie
  by_cases hmz : m.isSet .zombie <;> by_cases hnz : n.isSet .zombie <;>
    simp [hmz, hnz, hv] at hnode hzombie

theorem Inv.nonce_ne_own (h : Inv db) (hn : db.bridgeTab uid = some n) :
    n.nonce ≠ db.nonce := by
  intro heq
  have hnode := h.nodeHt hn
  rw [heq, h.own] at hnode
  by_cases hz : n.isSet .zombie
  · simp [hz] at hnode
  · simp only [hz, Bool.false_eq_true, if_false, Option.some.injEq] at hnode
    exact absurd (h.bridgeTab hn).1 (by omega)

/-- **The summaries follow one bridge.** An exchange keeps what they are about. -/
theorem Inv.exchange (h : Inv db) (hn : db.bridgeTab uid = some n) (n' : Member)
    (hx : Exchange db uid n n' db') : Inv db' := by
  obtain ⟨hnonce, hnext, hls, hss⟩ := hx.frame
  have hlt : uid < db.nextUid := (h.bridgeTab hn).2
  have hlt' : uid < db'.nextUid := hnext ▸ hlt
  have hn' : db'.bridgeTab uid = some n' := by rw [hx.bridgeTab, Function.update_self]
  have hother : ∀ {v m}, v ≠ uid → db'.bridgeTab v = some m → db.bridgeTab v = some m := by
    intro v m hv hm
    rwa [hx.bridgeTab, Function.update_of_ne hv] at hm
  have hkeep : ∀ {v}, (∃ m, db.bridgeTab v = some m) → ∃ m, db'.bridgeTab v = some m := by
    intro v hm
    by_cases hv : v = uid
    · exact ⟨n', hv ▸ hn'⟩
    · rwa [hx.bridgeTab, Function.update_of_ne hv]
  refine ⟨⟨?_, ?_, ?_, ?_, ?_, ?_, ?_, ?_, ?_⟩, hnext ▸ h.pos, ?_, ?_, ?_⟩
  · intro v m hm
    rw [hnext]
    by_cases hv : v = uid
    · exact hv ▸ h.bridgeTab hn
    · exact h.bridgeTab (hother hv hm)
  · rw [fold_inState hn' hlt', hx.inState_erase, hx.nonceOf_eq hn, hnonce, hx.uidCsum,
      h.uidCsum, fold_inState hn hlt, xor_exchange]
  · have hcard := hx.uidAuthCount
    rw [h.uidAuthCount, card_inState hn hlt] at hcard
    rw [card_inState hn' hlt', hx.inState_erase]
    omega
  · rw [hx.uidAuthenticated, h.uidAuthenticated, inState_eq_insert_erase hn' hlt' .authenticated,
      hx.inState_erase]
    split
    · ext v
      simp only [Finset.mem_insert, Finset.mem_erase]
      tauto
    · rfl
  · intro v m hm
    rw [hx.nodeHt]
    by_cases hv : v = uid
    · subst hv
      obtain rfl : n' = m := Option.some.inj (hn'.symm.trans hm)
      rw [hx.nonce, Function.update_self]
    · have hm' := hother hv hm
      rw [Function.update_of_ne (h.nonce_ne hn hm' hv)]
      exact h.nodeHt hm'
  · intro v m hm
    rw [hx.zombieHt]
    by_cases hv : v = uid
    · subst hv
      obtain rfl : n' = m := Option.some.inj (hn'.symm.trans hm)
      rw [hx.nonce, Function.update_self]
    · have hm' := hother hv hm
      rw [Function.update_of_ne (h.nonce_ne hn hm' hv)]
      exact h.zombieHt hm'
  · have hcard := hx.uidHbCount
    rw [h.uidHbCount, card_inState hn hlt] at hcard
    rw [card_inState hn' hlt', hx.inState_erase]
    omega
  · rw [hx.linkStateSum, h.linkStateSum, hls, hnext, hx.linkStateSeqnoOf_eq, sum_update hlt]
    simp only [linkStateSeqnoOf, hn, Option.elim_some]
    rw [add_sub_assoc, add_assoc]
  · rw [hx.subSeqnoSum, h.subSeqnoSum, hss, hnext, hx.subSeqnoOf_eq, sum_update hlt]
    simp only [subSeqnoOf, hn, Option.elim_some]
    rw [add_sub_assoc, add_assoc]
  · rw [hx.nodeHt, hnonce, Function.update_of_ne (h.nonce_ne_own hn).symm]
    exact h.own
  · intro nonce v hv
    rw [hx.nodeHt, Function.update_apply] at hv
    split at hv
    · split at hv
      · simp at hv
      · exact Or.inr ⟨n', Option.some.inj hv ▸ hn'⟩
    · exact (h.nodeHt_back hv).imp id hkeep
  · intro nonce v hv
    rw [hx.zombieHt, Function.update_apply] at hv
    split at hv
    · split at hv
      · exact ⟨n', Option.some.inj hv ▸ hn'⟩
      · simp at hv
    · exact hkeep (h.zombieHt_back hv)

end Exchange

/-! ## The steps -/

section Steps

variable {db db' : MemberDB} {uid : ℕ} {n n' : Member}

/-- A change that leaves the bit alone, and the summaries of it. -/
theorem Inv.authMoves_same (h : Inv db) (hn : db.bridgeTab uid = some n)
    (hnonce : n'.nonce = n.nonce) (hbit : n'.isSet .authenticated = n.isSet .authenticated)
    (hcsum : db'.uidCsum = db.uidCsum) (hcount : db'.uidAuthCount = db.uidAuthCount)
    (hset : db'.uidAuthenticated = db.uidAuthenticated) : AuthMoves db uid n n' db' := by
  have hmem : uid ∈ db.uidAuthenticated ↔ n.isSet .authenticated := by
    simp [h.uidAuthenticated, inState, hn, (h.bridgeTab hn).2]
  refine ⟨?_, ?_, ?_⟩
  · have hcsum' : n'.csum = n.csum := by rw [Member.csum, Member.csum, hbit, hnonce]
    rw [hcsum, hcsum', BitVec.xor_assoc, BitVec.xor_self, BitVec.xor_zero]
  · rw [hcount, Member.count, Member.count, hbit]
  · rw [hset, hbit]
    split
    · next ha => exact (Finset.insert_eq_of_mem (hmem.2 ha)).symm
    · next ha => exact (Finset.erase_eq_of_notMem fun hu => ha (hmem.1 hu)).symm

theorem Inv.tableMoves_same (h : Inv db) (hn : db.bridgeTab uid = some n)
    (hbit : n'.isSet .zombie = n.isSet .zombie) (hnode : db'.nodeHt = db.nodeHt)
    (hzombie : db'.zombieHt = db.zombieHt) : TableMoves db uid n n' db' := by
  refine ⟨?_, ?_⟩
  · rw [hnode, hbit, ← h.nodeHt hn, Function.update_eq_self]
  · rw [hzombie, hbit, ← h.zombieHt hn, Function.update_eq_self]

theorem count_same {c : ℕ} {s : UserNonceState} (hbit : n'.isSet s = n.isSet s) :
    c + n.count s = c + n'.count s := by
  rw [Member.count, Member.count, hbit]

theorem sum_same (sum a : BitVec 64) : sum = sum - a + a := (sub_add_cancel sum a).symm

/-- A count that includes the peer is not 0. -/
theorem card_inState_pos (hn : db.bridgeTab uid = some n) (hlt : uid < db.nextUid)
    {s : UserNonceState} (hs : n.isSet s) : 0 < (db.inState s).card := by
  rw [card_inState hn hlt, Member.count, if_pos hs]
  exact Nat.add_pos_left Nat.one_pos _

/-- A bridge whose bits and seqnos stay as they are. -/
theorem Inv.put (h : Inv db) (hn : db.bridgeTab uid = some n) (hnonce : n'.nonce = n.nonce)
    (hstate : ∀ s, Summarised s → n'.isSet s = n.isSet s)
    (hls : n'.linkStateSeqno = n.linkStateSeqno) (hss : n'.subSeqno = n.subSeqno) :
    Inv (db.put uid n') := by
  refine h.exchange hn n'
    ⟨h.authMoves_same hn hnonce (hstate _ rfl) rfl rfl rfl,
      h.tableMoves_same hn (hstate _ rfl) rfl rfl, hnonce, rfl, ⟨rfl, rfl, rfl, rfl⟩,
      count_same (hstate _ rfl), ?_, ?_⟩
  · rw [hls]
    exact sum_same _ _
  · rw [hss]
    exact sum_same _ _

theorem Inv.withBridge {f : MemberDB → ℕ → Member → MemberDB} (h : Inv db) (uid : ℕ)
    (hf : ∀ {n}, db.bridgeTab uid = some n → Inv (f db uid n)) : Inv (db.withBridge uid f) := by
  unfold MemberDB.withBridge
  split
  · exact h
  · next hn => exact hf hn

theorem Inv.updateLinkStateSeqno (h : Inv db) (uid : ℕ) (seqno : BitVec 32) :
    Inv (db.updateLinkStateSeqno uid seqno) := by
  unfold MemberDB.updateLinkStateSeqno
  split
  · exact h
  · next n hn =>
    exact h.exchange hn { n with linkStateSeqno := seqno.setWidth 64 }
      ⟨h.authMoves_same hn rfl rfl rfl rfl rfl, h.tableMoves_same hn rfl rfl rfl, rfl, rfl,
        ⟨rfl, rfl, rfl, rfl⟩, rfl, rfl, sum_same _ _⟩

theorem Inv.updateSubSeqno (h : Inv db) (uid : ℕ) (seqno : BitVec 32) :
    Inv (db.updateSubSeqno uid seqno) := by
  unfold MemberDB.updateSubSeqno
  split
  · exact h
  · next n hn =>
    exact h.exchange hn { n with subSeqno := seqno.setWidth 64 }
      ⟨h.authMoves_same hn rfl rfl rfl rfl rfl, h.tableMoves_same hn rfl rfl rfl, rfl, rfl,
        ⟨rfl, rfl, rfl, rfl⟩, rfl, sum_same _ _, rfl⟩

theorem Inv.reanimate (h : Inv db) (hn : db.bridgeTab uid = some n) :
    Inv (db.reanimate uid n) := by
  unfold MemberDB.reanimate
  split
  · have hclear : (n.clear .zombie).isSet .zombie = false := by simp
    refine h.exchange hn (n.clear .zombie)
      ⟨h.authMoves_same hn rfl (by simp) rfl rfl rfl, ⟨?_, ?_⟩, rfl, rfl, ⟨rfl, rfl, rfl, rfl⟩,
        count_same (by simp), sum_same _ _, sum_same _ _⟩
    · rw [hclear]
      rfl
    · rw [hclear]
      rfl
  · exact h

theorem Inv.authenticate (h : Inv db) (hn : db.bridgeTab uid = some n) :
    Inv (db.authenticate uid n) := by
  unfold MemberDB.authenticate
  split
  · exact h
  · next ha =>
    have hset : (n.set .authenticated).isSet .authenticated = true := by simp
    refine h.exchange hn (n.set .authenticated)
      ⟨⟨?_, ?_, ?_⟩, h.tableMoves_same hn (by simp) rfl rfl, rfl, rfl, ⟨rfl, rfl, rfl, rfl⟩,
        count_same (by simp), sum_same _ _, sum_same _ _⟩
    · rw [Member.csum, Member.csum, if_neg ha, if_pos hset]
      exact congrArg (· ^^^ n.nonce) BitVec.xor_zero.symm
    · rw [Member.count, Member.count, if_neg ha, if_pos hset]
    · rw [if_pos hset]

theorem Inv.deauthenticate (h : Inv db) (hn : db.bridgeTab uid = some n) (curMono : ℕ) :
    Inv (db.deauthenticate uid n curMono) := by
  unfold MemberDB.deauthenticate
  split
  · next ha =>
    have hpos := card_inState_pos hn (h.bridgeTab hn).2 ha
    rw [← h.uidAuthCount] at hpos
    have hclear : ({ n.clear .authenticated with removeAuthMono := curMono } : Member).isSet
        .authenticated = false := n.isSet_clear_self _
    refine h.exchange hn { n.clear .authenticated with removeAuthMono := curMono }
      ⟨⟨?_, ?_, ?_⟩, h.tableMoves_same hn (n.isSet_clear_of_ne (by decide)) rfl rfl, rfl, rfl,
        ⟨rfl, rfl, rfl, rfl⟩, count_same (n.isSet_clear_of_ne (by decide)), sum_same _ _,
        sum_same _ _⟩
    · rw [Member.csum, Member.csum, if_pos ha, hclear]
      exact BitVec.xor_zero.symm
    · rw [Member.count, Member.count, if_pos ha, hclear]
      exact Nat.sub_add_cancel hpos
    · rw [hclear]
      rfl
  · exact h

theorem Inv.clearHb (h : Inv db) (hn : db.bridgeTab uid = some n) : Inv (db.clearHb uid n) := by
  unfold MemberDB.clearHb
  split
  · next hs =>
    have hpos := card_inState_pos hn (h.bridgeTab hn).2 hs
    rw [← h.uidHbCount] at hpos
    refine h.exchange hn (n.clear .hasHb)
      ⟨h.authMoves_same hn rfl (by simp) rfl rfl rfl, h.tableMoves_same hn (by simp) rfl rfl,
        rfl, rfl, ⟨rfl, rfl, rfl, rfl⟩, ?_, sum_same _ _, sum_same _ _⟩
    have hclear : (n.clear .hasHb).isSet .hasHb = false := by simp
    rw [Member.count, Member.count, if_pos hs, hclear]
    exact Nat.sub_add_cancel hpos
  · exact h

theorem Inv.onHeartbeat (h : Inv db) (uid : ℕ) (ok stranger : Bool) :
    Inv (db.onHeartbeat uid ok stranger) := by
  refine h.withBridge uid fun {n} hn => ?_
  split
  · next hcond =>
    have hs : n.isSet .hasHb = false := by
      simp only [Bool.and_eq_true, Bool.not_eq_true'] at hcond
      exact hcond.2
    have hset : (n.set .hasHb).isSet .hasHb = true := by simp
    refine h.exchange hn (n.set .hasHb)
      ⟨h.authMoves_same hn rfl (by simp) rfl rfl rfl, h.tableMoves_same hn (by simp) rfl rfl,
        rfl, rfl, ⟨rfl, rfl, rfl, rfl⟩, ?_, sum_same _ _, sum_same _ _⟩
    rw [Member.count, Member.count, hs, hset]
    rfl
  · exact h

/-- The peer that is buried is in no summary but the tables. -/
theorem Inv.bury (h : Inv db) (hn : db.bridgeTab uid = some n)
    (hauth : n.isSet .authenticated = false) (hhb : n.isSet .hasHb = false) :
    Inv (db.bury uid n) := by
  refine h.exchange hn { n with state := {.zombie} }
    ⟨h.authMoves_same hn rfl hauth.symm rfl rfl rfl, ⟨rfl, ?_⟩, rfl, rfl, ⟨rfl, rfl, rfl, rfl⟩,
      count_same hhb.symm, sum_same _ _, sum_same _ _⟩
  show (if n.isSet .zombie then db.zombieHt
    else Function.update db.zombieHt n.nonce (some uid)) = _
  split
  · next hz =>
    have hin := h.zombieHt hn
    rw [if_pos hz] at hin
    exact (Function.update_eq_self_iff.2 hin.symm).symm
  · rfl

/-! New users -/

/-- The uids before the new one keep their bridges. -/
theorem addUser_bridgeTab_of_lt {v : ℕ} (nonce : Nonce) (hv : v < db.nextUid) :
    (db.addUser nonce).bridgeTab v = db.bridgeTab v :=
  Function.update_of_ne (ne_of_lt hv) _ _

theorem addUser_bridgeTab_self (nonce : Nonce) :
    (db.addUser nonce).bridgeTab db.nextUid = some (Member.new nonce) :=
  Function.update_self _ _ _

theorem addUser_inState (nonce : Nonce) (s : UserNonceState) :
    (db.addUser nonce).inState s = db.inState s := by
  have hnew : ¬ ((db.addUser nonce).bridgeTab db.nextUid).any (·.isSet s) := by
    rw [addUser_bridgeTab_self]
    simp [Member.new, Member.isSet]
  show (Finset.range (db.nextUid + 1)).filter _ = _
  rw [Finset.range_add_one, Finset.filter_insert, if_neg hnew]
  refine Finset.filter_congr fun v hv => ?_
  rw [addUser_bridgeTab_of_lt nonce (Finset.mem_range.1 hv)]

/-- A sum over the bridges, to which the new one adds nothing. -/
theorem sum_addUser (nonce : Nonce) {f : Member → BitVec 64} (hf : f (Member.new nonce) = 0) :
    ∑ v ∈ Finset.range (db.nextUid + 1), ((db.addUser nonce).bridgeTab v).elim 0 f =
      ∑ v ∈ Finset.range db.nextUid, (db.bridgeTab v).elim 0 f := by
  rw [Finset.sum_range_succ, addUser_bridgeTab_self, Option.elim_some, hf, add_zero]
  refine Finset.sum_congr rfl fun v hv => ?_
  rw [addUser_bridgeTab_of_lt nonce (Finset.mem_range.1 hv)]

theorem Inv.addUser (h : Inv db) {nonce : Nonce} (hnode : db.nodeHt nonce = none)
    (hzombie : db.zombieHt nonce = none) : Inv (db.addUser nonce) := by
  have hcases : ∀ {v m}, (db.addUser nonce).bridgeTab v = some m →
      (v = db.nextUid ∧ m = Member.new nonce) ∨ db.bridgeTab v = some m := by
    intro v m hm
    by_cases hv : v = db.nextUid
    · rw [hv, addUser_bridgeTab_self] at hm
      exact Or.inl ⟨hv, (Option.some.inj hm).symm⟩
    · exact Or.inr (by rwa [← show (db.addUser nonce).bridgeTab v = db.bridgeTab v from
        Function.update_of_ne hv _ _])
  have hkeep : ∀ {v m}, db.bridgeTab v = some m → (db.addUser nonce).bridgeTab v = some m := by
    intro v m hm
    rw [addUser_bridgeTab_of_lt nonce (h.bridgeTab hm).2, hm]
  -- the nonce is in neither table, so it is no peer's
  have hfresh : ∀ {v m}, db.bridgeTab v = some m → m.nonce ≠ nonce := by
    intro v m hm heq
    have hn := h.nodeHt hm
    have hz := h.zombieHt hm
    rw [heq, hnode] at hn
    rw [heq, hzombie] at hz
    by_cases hmz : m.isSet .zombie <;> simp [hmz] at hn hz
  refine ⟨⟨?_, ?_, ?_, ?_, ?_, ?_, ?_, ?_, ?_⟩, Nat.succ_pos _, ?_, ?_, ?_⟩
  · intro v m hm
    rcases hcases hm with ⟨rfl, -⟩ | hm
    · exact ⟨h.pos, Nat.lt_succ_self _⟩
    · exact ⟨(h.bridgeTab hm).1, Nat.lt_succ_of_lt (h.bridgeTab hm).2⟩
  · rw [addUser_inState]
    refine h.uidCsum.trans (Finset.fold_congr fun v hv => ?_)
    rw [nonceOf, nonceOf,
      addUser_bridgeTab_of_lt nonce (Finset.mem_range.1 (Finset.mem_filter.1 hv).1)]
  · rw [addUser_inState]
    exact h.uidAuthCount
  · rw [addUser_inState]
    exact h.uidAuthenticated
  · intro v m hm
    show Function.update db.nodeHt nonce (some db.nextUid) m.nonce = _
    rcases hcases hm with ⟨rfl, rfl⟩ | hm
    · exact Function.update_self _ _ _
    · rw [Function.update_of_ne (hfresh hm)]
      exact h.nodeHt hm
  · intro v m hm
    rcases hcases hm with ⟨rfl, rfl⟩ | hm
    · exact hzombie
    · exact h.zombieHt hm
  · rw [addUser_inState]
    exact h.uidHbCount
  · exact h.linkStateSum.trans (congrArg (db.linkStateSeqno + ·) (sum_addUser nonce rfl).symm)
  · exact h.subSeqnoSum.trans (congrArg (db.subSeqno + ·) (sum_addUser nonce rfl).symm)
  · show Function.update db.nodeHt nonce (some db.nextUid) db.nonce = some 0
    have hne : db.nonce ≠ nonce := by
      intro heq
      have hown := h.own
      rw [heq, hnode] at hown
      cases hown
    rw [Function.update_of_ne hne]
    exact h.own
  · intro key v hv
    rw [show (db.addUser nonce).nodeHt = Function.update db.nodeHt nonce (some db.nextUid)
      from rfl, Function.update_apply] at hv
    split at hv
    · exact Or.inr ⟨_, Option.some.inj hv ▸ addUser_bridgeTab_self nonce⟩
    · exact (h.nodeHt_back hv).imp id fun ⟨m, hm⟩ => ⟨m, hkeep hm⟩
  · intro key v hv
    obtain ⟨m, hm⟩ := h.zombieHt_back hv
    exact ⟨m, hkeep hm⟩

theorem Inv.lookupUser (h : Inv db) (nonce : Nonce) (peer : Bool) :
    Inv (db.lookupUser nonce peer) := by
  unfold MemberDB.lookupUser
  split
  · exact h
  · next hnode =>
    split
    · exact h
    · next hzombie =>
      split
      · exact h.addUser hnode hzombie
      · exact h

/-- A bridge id that is in a table has a bridge, or is the node's own. -/
theorem Inv.decodePeerMsg_none (h : Inv db) {userN : Option ℕ} {nonce : Nonce}
    (hdec : db.decodePeerMsg userN nonce = some none) :
    db.nodeHt nonce = none ∧ db.zombieHt nonce = none := by
  unfold MemberDB.decodePeerMsg at hdec
  split at hdec
  · simp at hdec
  · split at hdec
    · next hfind => exact Option.or_eq_none_iff.1 hfind
    · next uid hfind =>
      split at hdec
      · split at hdec <;> simp at hdec
      · next hbridge =>
        split at hdec
        · simp at hdec
        · next hme =>
          exfalso
          rcases Option.or_eq_some_iff.1 hfind with hnode | ⟨-, hzombie⟩
          · obtain rfl | ⟨n, hn⟩ := h.nodeHt_back hnode
            · exact hme rfl
            · rw [hn] at hbridge
              cases hbridge
          · obtain ⟨n, hn⟩ := h.zombieHt_back hzombie
            rw [hn] at hbridge
            cases hbridge

theorem Inv.makePeerSession (h : Inv db) (userN : Option ℕ) (nonce : Nonce) (decoded : Bool) :
    Inv (db.makePeerSession userN nonce decoded) := by
  unfold MemberDB.makePeerSession
  split
  · next hdec =>
    obtain ⟨hnode, hzombie⟩ := h.decodePeerMsg_none hdec
    split
    · exact h.addUser hnode hzombie
    · exact h
  · exact h

theorem Inv.onNameSvc (h : Inv db) (nonce : Nonce) (verified : Bool) :
    Inv (db.onNameSvc nonce verified) := by
  unfold MemberDB.onNameSvc
  split
  · exact h
  · next hfind =>
    obtain ⟨hnode, hzombie⟩ := Option.or_eq_none_iff.1 hfind
    split
    · exact h.addUser hnode hzombie
    · exact h

/-! The node's own seqnos and checksum -/

theorem Inv.nextLinkStateSeqno (h : Inv db) : Inv db.nextLinkStateSeqno := by
  refine ⟨⟨h.bridgeTab, h.uidCsum, h.uidAuthCount, h.uidAuthenticated, h.nodeHt, h.zombieHt,
    h.uidHbCount, ?_, h.subSeqnoSum⟩, h.pos, h.own, h.nodeHt_back, h.zombieHt_back⟩
  show db.linkStateSum - db.linkStateSeqno + _ = _
  rw [h.linkStateSum, add_sub_cancel_left, add_comm]
  rfl

theorem Inv.nextSubSeqno (h : Inv db) : Inv db.nextSubSeqno := by
  refine ⟨⟨h.bridgeTab, h.uidCsum, h.uidAuthCount, h.uidAuthenticated, h.nodeHt, h.zombieHt,
    h.uidHbCount, h.linkStateSum, ?_⟩, h.pos, h.own, h.nodeHt_back, h.zombieHt_back⟩
  show db.subSeqnoSum - db.subSeqno + _ = _
  rw [h.subSeqnoSum, add_sub_cancel_left, add_comm]
  rfl

/-- The loop of `check_uid_csum` up to a uid; the node itself, uid 0, has no bridge. -/
theorem foldl_csum (hzero : db.bridgeTab 0 = none) (k : ℕ) :
    (List.range' 1 k).foldl db.addCsum db.nonce =
      ((Finset.range (k + 1)).filter fun uid =>
        (db.bridgeTab uid).any (·.isSet .authenticated)).fold (fun x y : Nonce => x ^^^ y)
          db.nonce db.nonceOf := by
  induction k with
  | zero =>
    rw [Finset.range_add_one, Finset.filter_insert, hzero]
    rfl
  | succ k ih =>
    rw [List.range'_concat, List.foldl_append, ih, Finset.range_add_one (n := k + 1),
      Finset.filter_insert, Nat.one_mul, Nat.add_comm 1 k, List.foldl_cons, List.foldl_nil,
      addCsum]
    rcases hb : db.bridgeTab (k + 1) with _ | n
    · rfl
    · simp only [Option.any_some]
      by_cases ha : n.isSet .authenticated
      · rw [if_pos ha, if_pos ha, Finset.fold_insert (by simp), BitVec.xor_comm]
        simp only [nonceOf, hb, Option.elim_some]
      · rw [if_neg ha, if_neg ha]

theorem Inv.checkCsum (h : Inv db) : db.checkCsum = db.uidCsum := by
  have hzero : db.bridgeTab 0 = none := by
    rcases hb : db.bridgeTab 0 with _ | n
    · rfl
    · exact absurd (h.bridgeTab hb).1 (lt_irrefl _)
  have hpos := h.pos
  rw [h.uidCsum, MemberDB.checkCsum, foldl_csum hzero, Nat.sub_add_cancel hpos]
  rfl

theorem Inv.checkUidCsum (h : Inv db) (peerCsum : Nonce) : Inv (db.checkUidCsum peerCsum) := by
  unfold MemberDB.checkUidCsum
  rw [h.checkCsum, if_neg (not_not_intro rfl), ite_self]
  exact h

/-! Authentication and removal -/

theorem Inv.updateAll (h : Inv db) (synced : List (ℕ × BitVec 32)) :
    Inv (synced.foldl (fun db p => db.updateLinkStateSeqno p.1 p.2) db) := by
  induction synced generalizing db with
  | nil => exact h
  | cons p synced ih => exact ih (h.updateLinkStateSeqno p.1 p.2)

theorem Inv.addAuthenticated (h : Inv db) (uid : ℕ) (stage : AuthType) (curMono : ℕ)
    (synced : List (ℕ × BitVec 32)) (change : Bool) :
    Inv (db.addAuthenticated uid stage curMono synced change) := by
  unfold MemberDB.addAuthenticated
  split
  · exact h
  · next n hn =>
    split
    · exact h
    · have hnote : Inv (db.put uid (n.noteAuth stage curMono)) :=
        h.put hn rfl (fun _ _ => rfl) rfl rfl
      have hpeer := hnote.withBridge uid fun hm => hnote.reanimate hm
      have hauth := hpeer.withBridge uid fun hm => hpeer.authenticate hm
      have hsynced := hauth.updateAll synced
      split
      · exact hsynced.nextLinkStateSeqno
      · exact hsynced

/-- The bit is clear in the bridge of the uid, when there is one. -/
def Clear (db : MemberDB) (uid : ℕ) (s : UserNonceState) : Prop :=
  ∀ n, db.bridgeTab uid = some n → n.isSet s = false

theorem Clear.withBridge {f : MemberDB → ℕ → Member → MemberDB} {s : UserNonceState}
    (hf : ∀ {n}, db.bridgeTab uid = some n → Clear (f db uid n) uid s) :
    Clear (db.withBridge uid f) uid s := by
  unfold MemberDB.withBridge
  split
  · next hn =>
    intro m hm
    rw [hn] at hm
    cases hm
  · next hn => exact hf hn

theorem clear_put {s : UserNonceState} (hs : n.isSet s = false) : Clear (db.put uid n) uid s := by
  intro m hm
  obtain rfl : n = m := Option.some.inj ((Function.update_self uid _ _).symm.trans hm)
  exact hs

theorem clear_deauthenticate (hn : db.bridgeTab uid = some n) (curMono : ℕ) :
    Clear (db.deauthenticate uid n curMono) uid .authenticated := by
  unfold MemberDB.deauthenticate
  split
  · exact clear_put (n.isSet_clear_self _)
  · next ha =>
    intro m hm
    obtain rfl : n = m := Option.some.inj (hn.symm.trans hm)
    exact Bool.eq_false_iff.2 ha

theorem clear_clearHb (hn : db.bridgeTab uid = some n)
    (hauth : n.isSet .authenticated = false) :
    Clear (db.clearHb uid n) uid .authenticated ∧ Clear (db.clearHb uid n) uid .hasHb := by
  unfold MemberDB.clearHb
  split
  · exact ⟨clear_put ((n.isSet_clear_of_ne (by decide)).trans hauth),
      clear_put (n.isSet_clear_self _)⟩
  · next hs =>
    constructor
    · intro m hm
      obtain rfl : n = m := Option.some.inj (hn.symm.trans hm)
      exact hauth
    · intro m hm
      obtain rfl : n = m := Option.some.inj (hn.symm.trans hm)
      exact Bool.eq_false_iff.2 hs

theorem Clear.updateSubSeqno {s : UserNonceState} (h : Clear db uid s) (seqno : BitVec 32) :
    Clear (db.updateSubSeqno uid seqno) uid s := by
  unfold MemberDB.updateSubSeqno
  split
  · exact h
  · next n hn => exact clear_put (h n hn)

theorem Clear.updateLinkStateSeqno {s : UserNonceState} (h : Clear db uid s)
    (seqno : BitVec 32) : Clear (db.updateLinkStateSeqno uid seqno) uid s := by
  unfold MemberDB.updateLinkStateSeqno
  split
  · exact h
  · next n hn => exact clear_put (h n hn)

theorem Inv.removeAuthenticated (h : Inv db) (uid : ℕ) (bye : AuthType) (curMono : ℕ)
    (change : Bool) : Inv (db.removeAuthenticated uid bye curMono change) := by
  unfold MemberDB.removeAuthenticated
  have h₁ := h.withBridge uid (f := fun db uid n => db.put uid { n with lastAuthType := bye })
    fun hn => h.put hn rfl (fun _ _ => rfl) rfl rfl
  set db₁ := db.withBridge uid fun db uid n => db.put uid { n with lastAuthType := bye }
  have h₂ := h₁.withBridge uid (f := fun db uid n => db.deauthenticate uid n curMono)
    fun hn => h₁.deauthenticate hn curMono
  have hauth₂ : Clear (db₁.withBridge uid fun db uid n => db.deauthenticate uid n curMono) uid
      .authenticated := Clear.withBridge fun hn => clear_deauthenticate hn curMono
  set db₂ := db₁.withBridge uid fun db uid n => db.deauthenticate uid n curMono
  have h₃ := h₂.withBridge uid fun hn => h₂.clearHb hn
  have hauth₃ : Clear (db₂.withBridge uid MemberDB.clearHb) uid .authenticated :=
    Clear.withBridge fun hn => (clear_clearHb hn (hauth₂ _ hn)).1
  have hhb₃ : Clear (db₂.withBridge uid MemberDB.clearHb) uid .hasHb :=
    Clear.withBridge fun hn => (clear_clearHb hn (hauth₂ _ hn)).2
  have h₅ := (h₃.updateSubSeqno uid 0).updateLinkStateSeqno uid 0
  have hauth₅ := (hauth₃.updateSubSeqno 0).updateLinkStateSeqno 0
  have hhb₅ := (hhb₃.updateSubSeqno 0).updateLinkStateSeqno 0
  have h₆ := h₅.withBridge uid fun hn => h₅.bury hn (hauth₅ _ hn) (hhb₅ _ hn)
  split
  · exact h₆.nextLinkStateSeqno
  · exact h₆

theorem Inv.mark (h : Inv db) (uid : ℕ) (s : UserNonceState) (on : Bool) :
    Inv (db.mark uid s on) := by
  unfold MemberDB.mark
  split
  · exact h
  · next hs =>
    refine h.withBridge uid fun {n} hn => ?_
    have hne : ∀ t, Summarised t → t ≠ s := by
      rintro t ht rfl
      exact hs ht
    cases on with
    | true => exact h.put hn rfl (fun t ht => n.isSet_set_of_ne (hne t ht)) rfl rfl
    | false => exact h.put hn rfl (fun t ht => n.isSet_clear_of_ne (hne t ht)) rfl rfl

/-! ## Every run -/

theorem inv_init (nonce : Nonce) : Inv (init nonce) := by
  have hnone : ∀ {uid n}, (init nonce).bridgeTab uid ≠ some n := by
    intro uid n hn
    cases hn
  have hnode : ∀ key, (init nonce).nodeHt key = if key = nonce then some 0 else none := by
    intro key
    simp only [init, Function.update_apply]
  refine ⟨⟨fun hn => absurd hn hnone, rfl, rfl, rfl, fun hn => absurd hn hnone,
    fun hn => absurd hn hnone, rfl, rfl, rfl⟩, Nat.one_pos, (hnode nonce).trans (if_pos rfl),
    ?_, ?_⟩
  · intro key uid hkey
    rw [hnode] at hkey
    split at hkey
    · exact Or.inl (Option.some.inj hkey).symm
    · cases hkey
  · intro key uid hkey
    cases hkey

theorem Inv.step (h : Inv db) (e : Event) : Inv (db.step e) := by
  cases e with
  | lookupUser nonce peer => exact h.lookupUser nonce peer
  | makePeerSession userN nonce decoded => exact h.makePeerSession userN nonce decoded
  | onNameSvc nonce verified => exact h.onNameSvc nonce verified
  | addAuthenticated uid stage curMono synced change =>
    exact h.addAuthenticated uid stage curMono synced change
  | removeAuthenticated uid bye curMono change =>
    exact h.removeAuthenticated uid bye curMono change
  | onHeartbeat uid ok stranger => exact h.onHeartbeat uid ok stranger
  | checkUidCsum peerCsum => exact h.checkUidCsum peerCsum
  | linkState uid seqno => exact h.updateLinkStateSeqno uid seqno
  | subs uid seqno => exact h.updateSubSeqno uid seqno
  | ownLinkState => exact h.nextLinkStateSeqno
  | ownSubs => exact h.nextSubSeqno
  | mark uid s on => exact h.mark uid s on

/-- **The summaries never drift.** In every state of every run, whatever users are added,
authenticated, removed and brought back, and whatever seqnos they send, each summary is
the one computed anew from the peers. -/
theorem run_summarizes (nonce : Nonce) (es : List Event) : Summarizes (run nonce es) := by
  have hreach : Run.Reach MemberDB.step (fun _ _ => True) (init nonce) (run nonce es) :=
    Run.Reach.start.foldl (Run.allOk_true _ es)
  exact (hreach.invariant (inv_init nonce) fun db e h _ => h.step e).toSummarizes

end Steps

end MemberDB

end Raims
