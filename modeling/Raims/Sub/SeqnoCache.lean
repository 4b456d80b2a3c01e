import Raims.Sub.MatchSeqno

/-!
# The subscription that an entry remembers

An entry of the window keeps the callback, the start and the transports that its
subject was matched with, and the number of the subscription change it was matched at.
A message that finds the number unchanged takes them from the entry. After a change
they are computed again, but they are stored only if the subscription was started
again: otherwise the entry gets the new number and keeps the old callback and
transports.
-/

namespace Raims

/-- What `match_subscription` says of a subscription. -/
structure Subscription where
  cb : Option ℕ
  startSeqno : ℕ
  tportMask : Finset ℕ
deriving DecidableEq

def SeqnoArgs.subscription (ctx : SeqnoArgs) : Subscription :=
  ⟨ctx.cb, ctx.startSeqno, ctx.tportMask⟩

/-- What the entry remembers. -/
def SubSeqno.subscription (s : SubSeqno) : Subscription := ⟨s.onData, s.startSeqno, s.tportMask⟩

namespace SubNode

variable (kv : SeqnoKv) (n : SubNode)

/-- A matching message that is not refused by the trailing edge is handed back with what
`match_subscription` computes. -/
def HandsBack (n : SubNode) : Event → Prop
  | .recv pub stamp =>
    let m := n.db.matchSubscription kv pub (recvArgs pub stamp)
    n.isTrailing pub (recvArgs pub stamp) = false → m.2 = true →
      (n.recv kv pub stamp).ctx.subscription = m.1.subscription
  | _ => True

/-- The hashes that a message comes with are those of its subject, as long as the
subscriptions are the same. -/
def Hashed (hashes : ℕ → RouteKey → List UInt32) (n : SubNode) : Event → Prop
  | .recv pub _ => pub.hash = hashes n.db.updateSeqno pub.key
  | _ => True

/-- A subscription that was changed and not started again has the callback and the
transports that the entry remembers. -/
def RemembersRest (n : SubNode) : Event → Prop
  | .recv pub stamp =>
    let m := n.db.matchSubscription kv pub (recvArgs pub stamp)
    ∀ s, n.seqnoTab.find pub.key = some s → s.updateSeqno ≠ n.db.updateSeqno →
      m.2 = true → s.startSeqno = m.1.startSeqno → s.subscription = m.1.subscription
  | _ => True

instance (hashes : ℕ → RouteKey → List UInt32) : (e : Event) → Decidable (n.Hashed hashes e)
  | .recv pub _ => inferInstanceAs (Decidable (pub.hash = hashes n.db.updateSeqno pub.key))
  | .flip .. => isTrue trivial
  | .sub _ => isTrue trivial

instance : (e : Event) → Decidable (n.RemembersRest kv e)
  | .recv pub stamp =>
    inferInstanceAs (Decidable (∀ s ∈ n.seqnoTab.find pub.key,
      s.updateSeqno ≠ n.db.updateSeqno →
        (n.db.matchSubscription kv pub (recvArgs pub stamp)).2 = true →
        s.startSeqno = (n.db.matchSubscription kv pub (recvArgs pub stamp)).1.startSeqno →
        s.subscription = (n.db.matchSubscription kv pub (recvArgs pub stamp)).1.subscription))
  | .flip .. => isTrue trivial
  | .sub _ => isTrue trivial

end SubNode

/-! ## What a match depends on -/

namespace SubDB

variable {kv : SeqnoKv} {db db' : SubDB} {pub pub' : MsgFramePublish}

theorem subscription_addRoute {ctx ctx' : SeqnoArgs} (h : ctx.subscription = ctx'.subscription)
    (start : ℕ) (cb : Option ℕ) (ref : SubRefs) :
    (ctx.addRoute start cb ref).subscription = (ctx'.addRoute start cb ref).subscription := by
  simp only [SeqnoArgs.subscription, Subscription.mk.injEq] at h
  obtain ⟨hcb, hstart, hmask⟩ := h
  simp only [SeqnoArgs.addRoute, hcb, hmask]
  split
  · simp only [SeqnoArgs.subscription]
  · simp only [SeqnoArgs.subscription, hstart]

/-- Two results of a match that agree. -/
def Agree (r r' : SeqnoArgs × Bool) : Prop :=
  r.1.subscription = r'.1.subscription ∧ r.2 = r'.2

theorem agree_foldl {α : Type} {f f' : SeqnoArgs × Bool → α → SeqnoArgs × Bool}
    (hf : ∀ r r' a, Agree r r' → Agree (f r a) (f' r' a)) (l : List α)
    {r r' : SeqnoArgs × Bool} (h : Agree r r') : Agree (l.foldl f r) (l.foldl f' r') := by
  induction l generalizing r r' with
  | nil => exact h
  | cons a l ih => exact ih (hf _ _ a h)

/-- A match depends on the subject, its hashes and the routes. -/
theorem matchSubscription_congr (hkey : pub'.key = pub.key) (hhash : pub'.hash = pub.hash)
    (hsub : ∀ key, db'.subTab.lookup key = db.subTab.lookup key)
    (hpat : db'.patTab.tab = db.patTab.tab) {ctx ctx' : SeqnoArgs}
    (hctx : ctx'.subscription = ctx.subscription) :
    Agree (db'.matchSubscription kv pub' ctx') (db.matchSubscription kv pub ctx) := by
  have hsubj : pub'.subjHash = pub.subjHash := congrArg RouteKey.hash hkey
  have hvalue : pub'.subject = pub.subject := congrArg RouteKey.value hkey
  have hpatterns (h : UInt32) : db'.matchPatterns kv pub' h = db.matchPatterns kv pub h := by
    rw [matchPatterns, matchPatterns, hpat, hvalue]
  unfold matchSubscription
  rw [hhash]
  refine agree_foldl ?_ _ ⟨hctx, rfl⟩
  intro r r' h hr
  rw [hsubj, hkey, hsub, hpatterns]
  split
  · split
    · exact hr
    · exact ⟨subscription_addRoute hr.1 _ _ _, rfl⟩
  · refine agree_foldl ?_ _ hr
    intro q q' rt hq
    exact ⟨subscription_addRoute hq.1 _ _ _, rfl⟩

end SubDB

/-! ## The number of a subscription change -/

namespace SubDB

variable {db db' : SubDB}

/-- A call counts as a change, or it leaves the routes that are matched as they are. -/
def Counted (db db' : SubDB) : Prop :=
  db.updateSeqno < db'.updateSeqno ∨
    (db'.updateSeqno = db.updateSeqno ∧ (∀ key, db'.subTab.lookup key = db.subTab.lookup key) ∧
      db'.patTab.tab = db.patTab.tab)

theorem Counted.same (h : db'.updateSeqno = db.updateSeqno) (hsub : db'.subTab = db.subTab)
    (hpat : db'.patTab.tab = db.patTab.tab) : Counted db db' :=
  .inr ⟨h, fun key => by rw [hsub], hpat⟩

theorem updateSeqno_updateBloom (kv : Kv) (db : SubDB) (ctx : SubArgs) :
    (db.updateBloom kv ctx).1.updateSeqno = db.updateSeqno + 1 := by
  simp only [updateBloom, startBloom, stopBloom]
  split_ifs <;> rfl

theorem updateSeqno_updatePatBloom (kv : Kv) (db : SubDB) (ctx : PatternArgs) (rt : PatRoute) :
    (db.updatePatBloom kv ctx rt).1.updateSeqno = db.updateSeqno + 1 := by
  simp only [updatePatBloom, startPatBloom, stopPatBloom]
  split <;> rfl

theorem updateSeqno_finishSub (kv : Kv) (db : SubDB) (ctx : SubArgs) {status : SubStatus}
    (h : status = .ok ∨ status = .updated) (n : ℕ) :
    (db.finishSub kv ctx status n).db.updateSeqno = db.updateSeqno + 1 := by
  have hup := updateSeqno_updateBloom kv db ctx
  simp only [finishSub, if_pos h]
  split
  · exact hup
  · exact hup

theorem finishSub_refused (kv : Kv) (db : SubDB) (ctx : SubArgs) {status : SubStatus}
    (h : ¬ (status = .ok ∨ status = .updated)) (n : ℕ) :
    (db.finishSub kv ctx status n).db = db := by
  simp only [finishSub, if_neg h]

theorem counted_subStart (kv : Kv) (db : SubDB) (ctx : SubArgs) (mem : SubRefs) :
    Counted db (db.subStart kv ctx mem).db := by
  have hcount : (db.startSubTab ctx mem).1.updateSeqno = db.updateSeqno := by
    simp only [startSubTab]
    split <;> rfl
  unfold subStart
  dsimp only
  by_cases hok : (db.startSubTab ctx mem).2.2 = .ok ∨ (db.startSubTab ctx mem).2.2 = .updated
  · left
    rw [updateSeqno_finishSub kv _ _ hok, hcount]
    exact Nat.lt_succ_self _
  · rw [finishSub_refused kv _ _ hok]
    refine .inr ⟨hcount, ?_, ?_⟩
    · intro key
      simp only [startSubTab] at hok ⊢
      split
      · next hq =>
          simp only [if_pos hq] at hok
          cases hlook : db.subTab.lookup ctx.key with
          | none =>
            rw [SubTab.start_none _ hlook] at hok
            exact absurd (.inl rfl) hok
          | some rt =>
            by_cases hbit : SubRefs.bit ctx.owner ∈ rt.ref
            · rw [SubTab.start_held _ hlook hbit]
              by_cases hkey : key = ctx.key
              · subst hkey
                rw [AList.lookup_insert, hlook]
              · exact AList.lookup_insert_ne hkey
            · rw [SubTab.start_join _ hlook hbit] at hok
              exact absurd (.inr rfl) hok
      · rfl
    · simp only [startSubTab]
      split <;> rfl

theorem counted_subStop (kv : Kv) (db : SubDB) (ctx : SubArgs) :
    Counted db (db.subStop kv ctx).db := by
  have hcount : (db.stopSubTab ctx).1.updateSeqno = db.updateSeqno := by
    simp only [stopSubTab]
    split <;> rfl
  unfold subStop
  dsimp only
  by_cases hok : (db.stopSubTab ctx).2.2 = .ok ∨ (db.stopSubTab ctx).2.2 = .updated
  · left
    rw [updateSeqno_finishSub kv _ _ hok, hcount]
    exact Nat.lt_succ_self _
  · rw [finishSub_refused kv _ _ hok]
    refine .same hcount ?_ ?_
    · simp only [stopSubTab] at hok ⊢
      split
      · next hq =>
          simp only [if_pos hq] at hok
          cases hlook : db.subTab.lookup ctx.key with
          | none => rw [SubTab.stop_none _ hlook]
          | some rt =>
            rw [SubTab.stop, hlook] at hok
            dsimp only at hok
            split at hok
            · exact absurd (.inl rfl) hok
            · exact absurd (.inr rfl) hok
      · rfl
    · simp only [stopSubTab]
      split <;> rfl

theorem updateSeqno_startPatTab (kv : Kv) (db : SubDB) (ctx : PatternArgs) :
    (db.startPatTab kv ctx).1.updateSeqno = db.updateSeqno := by
  simp only [startPatTab]
  split <;> rfl

/-- A pattern is started or gets an owner, or the routes are as they were. -/
theorem startPatTab_counted (kv : Kv) (db : SubDB) (ctx : PatternArgs) :
    Counted db (db.startPatTab kv ctx).1 ∨
      (((db.startPatTab kv ctx).2.2.1 = .ok ∨ (db.startPatTab kv ctx).2.2.1 = .updated) ∧
        ∃ rt, (db.startPatTab kv ctx).2.2.2 = some rt) := by
  by_cases hq : ctx.queueHash = 0
  · simp only [startPatTab, if_pos hq]
    cases hlook : db.patTab.tab.lookup ctx.key with
    | none =>
      cases hc : kv.compile ctx.pat ctx.cvt with
      | none =>
        rw [PatTab.start_failed _ hlook hc]
        exact .inl (.same rfl rfl rfl)
      | some d =>
        rw [PatTab.start_new _ hlook hc]
        exact .inr ⟨.inl rfl, _, rfl⟩
    | some rt =>
      by_cases hbit : SubRefs.bit ctx.owner ∈ rt.ref
      · rw [PatTab.start_held _ hlook hbit]
        exact .inl (.same rfl rfl (if_pos hq))
      · rw [PatTab.start_join _ hlook hbit]
        exact .inr ⟨.inr rfl, _, rfl⟩
  · simp only [startPatTab, if_neg hq]
    exact .inl (.same rfl rfl rfl)

theorem counted_psubStart (kv : Kv) (db : SubDB) (ctx : PatternArgs) :
    Counted db (db.psubStart kv ctx).db := by
  have hcount := updateSeqno_startPatTab kv db ctx
  have hcounted := startPatTab_counted kv db ctx
  unfold psubStart
  rcases hstart : db.startPatTab kv ctx with ⟨db₁, ctx₁, status, rt⟩
  rw [hstart] at hcount hcounted
  cases rt with
  | none =>
    rcases hcounted with h | ⟨-, rt, hrt⟩
    · exact h
    · cases hrt
  | some rt =>
    have hup := updateSeqno_updatePatBloom kv db₁ ctx₁ rt
    have hlt : db.updateSeqno < (db₁.updatePatBloom kv ctx₁ rt).1.updateSeqno := by
      rw [hup, hcount]
      exact Nat.lt_succ_self _
    dsimp only
    split
    · left
      dsimp only
      split
      · exact hlt
      · exact hlt
    · next hno =>
        rcases hcounted with h | ⟨hok, -⟩
        · exact h
        · exact absurd hok hno

theorem updateSeqno_removePatTab (db : SubDB) (ctx : PatternArgs) (rt : PatRoute) :
    (db.removePatTab ctx rt).updateSeqno = db.updateSeqno := by
  simp only [removePatTab]
  split <;> rfl

/-- A pattern without a route is not stopped. -/
theorem stopPatTab_counted (db : SubDB) (ctx : PatternArgs)
    (h : (db.stopPatTab ctx).2.2.2 = none) : Counted db (db.stopPatTab ctx).1 := by
  by_cases hq : ctx.queueHash = 0
  · simp only [stopPatTab, if_pos hq] at h ⊢
    cases hlook : db.patTab.tab.lookup ctx.key with
    | none =>
      rw [PatTab.stop_none hlook]
      exact .same rfl rfl rfl
    | some rt =>
      rw [PatTab.stop, hlook] at h
      cases h
  · simp only [stopPatTab, if_neg hq]
    exact .same rfl rfl rfl

theorem counted_psubStop (kv : Kv) (db : SubDB) (ctx : PatternArgs) :
    Counted db (db.psubStop kv ctx).db := by
  have hcount : (db.stopPatTab ctx).1.updateSeqno = db.updateSeqno := by
    simp only [stopPatTab]
    split <;> rfl
  have hcounted := stopPatTab_counted db ctx
  unfold psubStop
  rcases hstop : db.stopPatTab ctx with ⟨db₁, ctx₁, status, rt⟩
  rw [hstop] at hcount hcounted
  cases rt with
  | none => exact hcounted rfl
  | some rt =>
    left
    have hup := updateSeqno_updatePatBloom kv db₁ ctx₁ rt
    have hlt : db.updateSeqno < (if (db₁.updatePatBloom kv ctx₁ rt).2.count.sub = 0 then
        ((db₁.updatePatBloom kv ctx₁ rt).1.fwdPsub (db₁.updatePatBloom kv ctx₁ rt).2).1
        else (db₁.updatePatBloom kv ctx₁ rt).1).updateSeqno := by
      have hlt : db.updateSeqno < (db₁.updatePatBloom kv ctx₁ rt).1.updateSeqno := by
        rw [hup, hcount]
        exact Nat.lt_succ_self _
      split
      · exact hlt
      · exact hlt
    dsimp only
    split
    · rw [updateSeqno_removePatTab]
      exact hlt
    · exact hlt

theorem counted_step (kv : Kv) (db : SubDB) (e : Event) : Counted db (db.step kv e) := by
  unfold step
  cases db.call kv e with
  | subStart ctx mem => exact counted_subStart kv db ctx mem
  | subStop ctx => exact counted_subStop kv db ctx
  | psubStart ctx => exact counted_psubStart kv db ctx
  | psubStop ctx => exact counted_psubStop kv db ctx
  | resizeBloom bloom console ipc => exact .same rfl rfl rfl
  | none => exact .same rfl rfl rfl

end SubDB

/-! ## The entries -/

namespace SubNode

variable {kv : SeqnoKv} {subKv : Kv} {hashes : ℕ → RouteKey → List UInt32} {n : SubNode}
  {pub : MsgFramePublish} {stamp : UInt64} {key : RouteKey} {s : SubSeqno}

/-- An entry that is up to date remembers what its subject would be matched with. -/
structure Remembers (kv : SeqnoKv) (hashes : ℕ → RouteKey → List UInt32) (db : SubDB)
    (key : RouteKey) (s : SubSeqno) : Prop where
  le : s.updateSeqno ≤ db.updateSeqno
  now : s.updateSeqno = db.updateSeqno →
    ∀ pub stamp, pub.key = key → pub.hash = hashes db.updateSeqno key →
      s.subscription = (db.matchSubscription kv pub (recvArgs pub stamp)).1.subscription

/-- Every copy in the window. -/
def Inv (kv : SeqnoKv) (hashes : ℕ → RouteKey → List UInt32) (n : SubNode) : Prop :=
  ∀ key s, n.seqnoTab.Holds key s → Remembers kv hashes n.db key s

/-- The subscription of a message does not depend on when it is received. -/
theorem subscription_match (db : SubDB) {pub' : MsgFramePublish} (hkey : pub'.key = pub.key)
    (hhash : pub'.hash = pub.hash) (stamp stamp' : UInt64) :
    (db.matchSubscription kv pub' (recvArgs pub' stamp')).1.subscription =
      (db.matchSubscription kv pub (recvArgs pub stamp)).1.subscription := by
  have hctx : (recvArgs pub' stamp').subscription = (recvArgs pub stamp).subscription := rfl
  exact (SubDB.matchSubscription_congr hkey hhash (fun _ => rfl) rfl hctx).1

theorem Remembers.counted {db db' : SubDB} (h : Remembers kv hashes db key s)
    (hc : SubDB.Counted db db') : Remembers kv hashes db' key s := by
  rcases hc with hlt | ⟨hupd, hsub, hpat⟩
  · constructor
    · exact h.le.trans hlt.le
    · intro heq
      have hle := h.le
      omega
  · constructor
    · rw [hupd]
      exact h.le
    · intro heq pub stamp hkey hhash
      rw [hupd] at heq hhash
      rw [h.now heq pub stamp hkey hhash]
      exact (SubDB.matchSubscription_congr rfl rfl hsub hpat rfl).1.symm

/-- An entry that remembers the same at the same number. -/
theorem Remembers.congr {db : SubDB} {s' : SubSeqno} (h : Remembers kv hashes db key s)
    (hupd : s'.updateSeqno = s.updateSeqno) (hsub : s'.subscription = s.subscription) :
    Remembers kv hashes db key s' := by
  constructor
  · rw [hupd]
    exact h.le
  · rw [hupd, hsub]
    exact h.now

/-- An entry that has just been matched. -/
theorem Remembers.of_match {db : SubDB} (hupd : s.updateSeqno = db.updateSeqno)
    (hhash : pub.hash = hashes db.updateSeqno pub.key) (stamp : UInt64)
    (hsub : s.subscription =
      (db.matchSubscription kv pub (recvArgs pub stamp)).1.subscription) :
    Remembers kv hashes db pub.key s := by
  constructor
  · exact hupd.le
  · intro _ pub' stamp' hkey' hhash'
    rw [hsub]
    exact (subscription_match db hkey' (hhash'.trans hhash.symm) _ _).symm

/-- A message to an entry leaves what the entry remembers and what is handed back. -/
theorem receive_subscription (kv : SeqnoKv) (s : SubSeqno) (uid : UInt32) (seqno time : UInt64)
    (ctx : SeqnoArgs) :
    (s.receive kv uid seqno time ctx).1.subscription = s.subscription ∧
      (s.receive kv uid seqno time ctx).1.updateSeqno = s.updateSeqno ∧
      (s.receive kv uid seqno time ctx).2.1.subscription = ctx.subscription := by
  have hsequence (s : SubSeqno) :
      (s.sequence kv seqno time ctx).1.subscription = s.subscription ∧
        (s.sequence kv seqno time ctx).1.updateSeqno = s.updateSeqno ∧
        (s.sequence kv seqno time ctx).2.1.subscription = ctx.subscription := by
    simp only [SubSeqno.sequence]
    split_ifs <;> exact ⟨rfl, rfl, rfl⟩
  have hrestore : (s.restoreUid uid seqno time ctx.stamp).1.subscription = s.subscription ∧
      (s.restoreUid uid seqno time ctx.stamp).1.updateSeqno = s.updateSeqno := by
    simp only [SubSeqno.restoreUid]
    split <;> exact ⟨rfl, rfl⟩
  unfold SubSeqno.receive
  split
  · dsimp only
    split
    · exact ⟨hrestore.1, hrestore.2, rfl⟩
    · obtain ⟨h1, h2, h3⟩ := hsequence (s.restoreUid uid seqno time ctx.stamp).1
      exact ⟨h1.trans hrestore.1, h2.trans hrestore.2, h3⟩
  · exact hsequence s

theorem Inv.upsert (h : Inv kv hashes n) (key key' : RouteKey) (s : SubSeqno)
    (hs : (n.seqnoTab.upsert key).1.Holds key' s) : Remembers kv hashes n.db key' s := by
  rcases SeqnoTab.upsert_holds hs with hs | ⟨s₀, hs₀, rfl⟩
  · exact h key' s hs
  · exact (h key' s₀ hs₀).congr rfl rfl

/-- The entry of the message is the one that was set, and the others are copies. -/
theorem Inv.set (h : Inv kv hashes n) {sz : UInt64} (hs : Remembers kv hashes n.db pub.key s) :
    Inv kv hashes
      { n with seqnoTab := { (n.seqnoTab.upsert pub.key).1.set pub.key s with
          seqnoHtSize := sz } } := by
  intro key' s' hs'
  have hheld : ((n.seqnoTab.upsert pub.key).1.set pub.key s).Holds key' s' := hs'
  rcases SeqnoTab.set_holds hheld with ⟨rfl, rfl⟩ | hold
  · exact hs
  · exact h.upsert pub.key key' s' hold

theorem Inv.recv (h : Inv kv hashes n) (hhash : n.Hashed hashes (.recv pub stamp))
    (hrest : n.RemembersRest kv (.recv pub stamp)) :
    Inv kv hashes (n.step kv subKv (.recv pub stamp)) := by
  show Inv kv hashes { n with seqnoTab := (n.recv kv pub stamp).seqnoTab }
  rcases recv_branches kv n pub stamp with ⟨-, hr⟩ | ⟨-, ⟨-, -, hr⟩ | ⟨-, -, hr⟩ |
    ⟨s, hs, hupd, hmatch, hstart, hr⟩ | ⟨s, hs, hupd, hr⟩⟩
  · rw [hr]
    exact h
  · rw [hr]
    intro key' s' hs'
    exact h.upsert pub.key key' s' (SeqnoTab.remove_holds hs')
  · rw [hr]
    exact h.set (.of_match rfl hhash stamp rfl)
  · rw [hr]
    refine h.set (.of_match ?_ hhash stamp ?_)
    · exact (receive_subscription kv _ _ _ _ _).2.1
    · exact (receive_subscription kv _ _ _ _ _).1.trans (hrest s hs hupd hmatch hstart)
  · rw [hr]
    obtain ⟨hsub, hsame, -⟩ := receive_subscription kv s pub.uid pub.seqno
      (msgTime pub (recvArgs pub stamp)) (cachedArgs s (recvArgs pub stamp))
    exact h.set ((h pub.key s (SeqnoTab.find_holds hs)).congr hsame hsub)

theorem Inv.step (h : Inv kv hashes n) {e : Event} (hhash : n.Hashed hashes e)
    (hrest : n.RemembersRest kv e) : Inv kv hashes (n.step kv subKv e) := by
  cases e with
  | recv pub stamp => exact h.recv hhash hrest
  | flip winSize winCount curTime doubleTime quadTime =>
    intro key s hs
    exact h key s (SeqnoTab.flip_holds hs)
  | sub e =>
    intro key s hs
    exact (h key s hs).counted (SubDB.counted_step subKv n.db e)

theorem Inv.handsBack (h : Inv kv hashes n) {e : Event} (hhash : n.Hashed hashes e) :
    n.HandsBack kv e := by
  cases e with
  | recv pub stamp =>
    intro htrail hmatched
    rcases recv_branches kv n pub stamp with ⟨htrail', -⟩ | ⟨-, ⟨-, hmatch, -⟩ | ⟨-, -, hr⟩ |
      ⟨s, -, -, -, -, hr⟩ | ⟨s, hs, hupd, hr⟩⟩
    · rw [htrail] at htrail'
      cases htrail'
    · rw [hmatched] at hmatch
      cases hmatch
    · rw [hr]
    · rw [hr]
      exact (receive_subscription kv _ _ _ _ _).2.2
    · have hnow := (h pub.key s (SeqnoTab.find_holds hs)).now hupd pub stamp rfl hhash
      rw [hr]
      exact (receive_subscription kv _ _ _ _ _).2.2.trans hnow
  | flip | sub => trivial

/-- **What is handed back is what `match_subscription` computes**, as long as no change of
the owners leaves the start of a subscription as it is. -/
theorem handed_back_matched (kv : SeqnoKv) (subKv : Kv) (hashes : ℕ → RouteKey → List UInt32)
    (db : SubDB) (curTime windowIval : UInt64) {es : List Event}
    (h : Run.AllOk (fun n e => step kv n subKv e)
      (fun n e => n.Hashed hashes e ∧ n.RemembersRest kv e)
      ⟨db, .new curTime windowIval⟩ es) :
    Run.AllOk (fun n e => step kv n subKv e) (HandsBack kv) ⟨db, .new curTime windowIval⟩ es := by
  refine h.imp_of_invariant
    (fun (n : SubNode) e (hn : Inv kv hashes n) hok => hn.step hok.1 hok.2) ?_ ?_
  · intro n e hn hok
    exact hn.handsBack hok.1
  · intro key s hs
    rcases hs with hs | hs | hs
    · cases hs
    · cases hs
    · cases hs

/-- A message on another subject than `framed`. -/
def framedOther (uid : UInt32) (frame base : UInt64) : MsgFramePublish :=
  ⟨uid, 0, 8, [66], [8], frame <<< 35 + base, frame <<< 33, 0⟩

/-- Two subjects have owners, another subscription starts, the window flips, and then the owner
of the first subject leaves and one on transport 2 comes. -/
def ownersChange : List Event :=
  [.sub (.ipcSubStart [65] 7 0 ∅), .sub (.ipcSubStart [66] 8 3 ∅), .recv (framed 1 3 1 0) 0,
    .recv (framed 1 3 2 0) 0, .recv (framedOther 2 3 1) 0, .sub (.ipcSubStart [67] 9 5 ∅),
    .recv (framed 1 3 3 0) 0, .flip 0 0 36000000000 false false, .recv (framedOther 2 3 2) 0,
    .sub (.ipcSubStop [65] 7 0), .sub (.ipcSubStart [65] 7 2 ∅), .recv (framed 1 3 4 0) 0,
    .recv (framed 1 3 5 0) 0]

theorem handed_back_matched_ownersChange :
    Run.AllOk (fun n e => step plainKv n SubDB.prefixKv e)
        (fun n e => n.Hashed (fun _ key => [key.hash]) e ∧ n.RemembersRest plainKv e)
        ⟨.init 10 1 11 2, .new 25769803776 10000000000⟩ ownersChange ∧
      Run.AllOk (fun n e => step plainKv n SubDB.prefixKv e) (HandsBack plainKv)
        ⟨.init 10 1 11 2, .new 25769803776 10000000000⟩ ownersChange := by
  have hok : Run.AllOk (fun n e => step plainKv n SubDB.prefixKv e)
      (fun n e => n.Hashed (fun _ key => [key.hash]) e ∧ n.RemembersRest plainKv e)
      ⟨.init 10 1 11 2, .new 25769803776 10000000000⟩ ownersChange := by
    decide +kernel
  exact ⟨hok, handed_back_matched plainKv SubDB.prefixKv _ _ _ _ hok⟩

/-- A subject with an owner on transport 0, and a message. -/
def oneOwner : List Event :=
  [.sub (.ipcSubStart [65] 7 0 ∅), .recv (framed 1 3 1 0) 0]

/-- An owner on transport 2 joins, and two more messages come. -/
def ownerJoins : List Event :=
  oneOwner ++ [.sub (.ipcSubStart [65] 7 2 ∅), .recv (framed 1 3 2 0) 0, .recv (framed 1 3 3 0) 0]

/-- The message after the next one goes to transport 0 only. -/
theorem joined_owner_not_handed_back :
    ¬ ∀ (kv : SeqnoKv) (subKv : Kv) (hashes : ℕ → RouteKey → List UInt32) (db : SubDB)
      (curTime windowIval : UInt64) (es : List Event),
      Run.AllOk (fun n e => step kv n subKv e) (Hashed hashes) ⟨db, .new curTime windowIval⟩ es →
        Run.AllOk (fun n e => step kv n subKv e) (HandsBack kv) ⟨db, .new curTime windowIval⟩
          es := by
  intro h
  have hrun := h plainKv SubDB.prefixKv (fun _ _ => [7]) (.init 10 1 11 2) 25769803776 10000000000
    ownerJoins ⟨trivial, rfl, trivial, rfl, rfl, trivial⟩
  have hmask := congrArg Subscription.tportMask (hrun.2.2.2.2.1 (by decide) (by decide))
  revert hmask
  decide

end SubNode

end Raims
