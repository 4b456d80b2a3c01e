import Raims.Lib.Run
import Raims.User.QueueBits

/-!
# The timer leaves no peer that is late

A sweep of `check_user_timeout` takes the head of each queue as long as it is late. What
it does to a peer on the way makes it late nowhere, so each loop takes a peer once, and
what one queue is rid of stays gone.
-/

namespace Raims

namespace QueuedBridge

/-- The peer is in the queue and late. -/
def Late (n : QueuedBridge) (now : ℕ) (q : QueueId) : Prop :=
  n.isSet q.bit = true ∧ n.timeout q ≤ now

theorem lt_add_secToNs (now : ℕ) : now < now + Member.secToNs 5 :=
  Nat.lt_add_of_pos_right (Nat.mul_pos (by decide) (by decide))

/-- What a sweep does to a peer: it makes it late nowhere, challenges it not, makes it no
member and pings it as often as it is late. -/
structure Follows (now : ℕ) (n n' : QueuedBridge) : Prop where
  late : ∀ q, n'.Late now q → n.Late now q
  challenge : n'.isSet .challenge = true → n.isSet .challenge = true ∧
    (n'.challengeCount = n.challengeCount ∨ n'.challengeCount = 0)
  authenticated : n'.isSet .authenticated = true → n.isSet .authenticated = true
  pingFailCount : n'.Late now .ping → n'.pingFailCount = n.pingFailCount

namespace Follows

variable {n n' n'' : QueuedBridge} {now : ℕ}

theorem refl (now : ℕ) (n : QueuedBridge) : n.Follows now n :=
  ⟨fun _ h => h, fun h => ⟨h, Or.inl rfl⟩, fun h => h, fun _ => rfl⟩

theorem trans (h : n.Follows now n') (h' : n'.Follows now n'') : n.Follows now n'' where
  late q hq := h.late q (h'.late q hq)
  challenge hc := by
    obtain ⟨hc', hcount'⟩ := h'.challenge hc
    obtain ⟨hc, hcount⟩ := h.challenge hc'
    refine ⟨hc, ?_⟩
    rcases hcount' with heq | heq
    · rwa [heq]
    · exact Or.inr heq
  authenticated ha := h.authenticated (h'.authenticated ha)
  pingFailCount hp := by rw [h'.pingFailCount hp, h.pingFailCount (h'.late .ping hp)]

/-- A peer that is in no queue and no member. -/
theorem of_gone (hbits : ∀ q : QueueId, n'.isSet q.bit = false)
    (hauth : n'.isSet .authenticated = false) : n.Follows now n' where
  late q hq := Bool.noConfusion ((hbits q).symm.trans hq.1)
  challenge hc := Bool.noConfusion ((hbits .challenge).symm.trans hc)
  authenticated ha := Bool.noConfusion (hauth.symm.trans ha)
  pingFailCount hp := Bool.noConfusion ((hbits .ping).symm.trans hp.1)

theorem clear (s : UserNonceState) : n.Follows now (n.clear s) where
  late q hq := by
    obtain ⟨hset, htime⟩ := hq
    by_cases he : q.bit = s
    · rw [he, isSet_clear_self] at hset
      cases hset
    · exact ⟨by rwa [isSet_clear_of_ne _ he] at hset, by rwa [timeout_clear] at htime⟩
  challenge hc := by
    by_cases he : .challenge = s
    · rw [← he, isSet_clear_self] at hc
      cases hc
    · exact ⟨by rwa [isSet_clear_of_ne _ he] at hc, Or.inl rfl⟩
  authenticated ha := by
    by_cases he : .authenticated = s
    · rw [← he, isSet_clear_self] at ha
      cases ha
    · rwa [isSet_clear_of_ne _ he] at ha
  pingFailCount _ := rfl

/-- The peer waits in the queue from now on. -/
theorem waits {q : QueueId} (hq : q ≠ .challenge)
    (hbits : ∀ s, s ≠ q.bit → n'.isSet s = n.isSet s)
    (htime : ∀ q', q' ≠ q → n'.timeout q' = n.timeout q') (hnow : now < n'.timeout q)
    (hcount : n'.challengeCount = n.challengeCount)
    (hfails : q ≠ .ping → n'.pingFailCount = n.pingFailCount) : n.Follows now n' where
  late q' hq' := by
    have hne : q' ≠ q := by
      rintro rfl
      exact absurd hq'.2 (Nat.not_le.2 hnow)
    have hbit := hbits q'.bit fun e => hne (QueueId.bit_injective e)
    exact ⟨hbit ▸ hq'.1, htime q' hne ▸ hq'.2⟩
  challenge hc := by
    have hbit := hbits .challenge fun e => by cases q <;> first | exact hq rfl | cases e
    exact ⟨hbit ▸ hc, Or.inl hcount⟩
  authenticated ha := by
    have hbit := hbits .authenticated fun e => by cases q <;> cases e
    exact hbit ▸ ha
  pingFailCount hp := by
    refine hfails ?_
    rintro rfl
    exact absurd hp.2 (Nat.not_le.2 hnow)

end Follows

end QueuedBridge

namespace QueueDB

open QueuedBridge (Times lt_add_secToNs)

variable {o : PrioQueue ℕ} {Heap : (ℕ → ℕ) → List ℕ → Prop} {db db' : QueueDB} {q : QueueId}
  {uid v now : ℕ} {rest : List ℕ} {f : QueuedBridge → QueuedBridge} {unknownEmpty : Bool}

/-- What a sweep does to the peers. -/
def Follows (now : ℕ) (db db' : QueueDB) : Prop :=
  ∀ uid, (db.bridge uid).Follows now (db'.bridge uid)

theorem Follows.refl (now : ℕ) (db : QueueDB) : db.Follows now db :=
  fun uid => QueuedBridge.Follows.refl now (db.bridge uid)

theorem Follows.trans {db'' : QueueDB} (h : db.Follows now db') (h' : db'.Follows now db'') :
    db.Follows now db'' :=
  fun uid => (h uid).trans (h' uid)

theorem Follows.of_uid (uid : ℕ) (hne : ∀ v, v ≠ uid → db'.bridge v = db.bridge v)
    (huid : (db.bridge uid).Follows now (db'.bridge uid)) : db.Follows now db' := by
  intro v
  by_cases hv : v = uid
  · subst hv
    exact huid
  · rw [hne v hv]
    exact QueuedBridge.Follows.refl now (db.bridge v)

/-- The members that the sweep drops have no challenge. -/
def Timely (db : QueueDB) (now : ℕ) (unknownEmpty : Bool) : Prop :=
  ∀ uid, (db.bridge uid).Late now .hb ∨
      (db.bridge uid).Late now .ping ∧ (db.bridge uid).isSet .authenticated = true ∧
        6 ≤ (db.bridge uid).pingFailCount ∧ unknownEmpty = true →
    db.KeepsRemoved uid

theorem Timely.follows (h : db.Timely now unknownEmpty) (hf : db.Follows now db') :
    db'.Timely now unknownEmpty := by
  intro uid hdrop hc
  obtain ⟨hc', hcount⟩ := (hf uid).challenge hc
  have hzero : (db.bridge uid).challengeCount = 0 := by
    refine h uid ?_ hc'
    rcases hdrop with hhb | ⟨hping, hauth, hfails, hempty⟩
    · exact Or.inl ((hf uid).late .hb hhb)
    · refine Or.inr ⟨(hf uid).late .ping hping, (hf uid).authenticated hauth, ?_, hempty⟩
      rwa [(hf uid).pingFailCount hping] at hfails
  rcases hcount with heq | heq
  · rw [heq, hzero]
  · exact heq

theorem WF.mem_due (h : db.WF Heap) : uid ∈ db.due now q ↔ (db.bridge uid).Late now q := by
  rw [due, PrioQueue.mem_due, h.mem]
  rfl

/-- What the body of a loop of the sweep does. -/
structure Takes (Heap : (ℕ → ℕ) → List ℕ → Prop) (now : ℕ) (unknownEmpty : Bool) (q : QueueId)
    (f : QueueDB → ℕ → QueueDB) : Prop where
  wf : ∀ {db : QueueDB} {uid rest}, db.WF Heap → db.Timely now unknownEmpty → db.heap q = uid :: rest →
    (db.bridge uid).Late now q → (f db uid).WF Heap
  follows : ∀ {db : QueueDB} {uid rest}, db.WF Heap → db.heap q = uid :: rest → db.Follows now (f db uid)
  ends : ∀ {db : QueueDB} {uid rest}, db.WF Heap → db.heap q = uid :: rest →
    ¬ ((f db uid).bridge uid).Late now q

/-- A loop of the sweep leaves nobody who is late. -/
theorem Takes.expireLoop (ho : o.Lawful Heap) {g : QueueDB → ℕ → QueueDB}
    (hg : Takes Heap now unknownEmpty q g) :
    ∀ (fuel : ℕ) (db : QueueDB), (db.due now q).length ≤ fuel → db.WF Heap →
      db.Timely now unknownEmpty →
      (expireLoop q now g fuel db).WF Heap ∧ db.Follows now (expireLoop q now g fuel db) ∧
        ∀ uid, ¬ ((expireLoop q now g fuel db).bridge uid).Late now q := by
  intro fuel
  induction fuel with
  | zero =>
    intro db hfuel h _
    refine ⟨h, Follows.refl now db, fun uid hlate => ?_⟩
    have hmem := h.mem_due.2 hlate
    rw [List.eq_nil_of_length_eq_zero (Nat.le_zero.1 hfuel)] at hmem
    cases hmem
  | succ fuel ih =>
    intro db hfuel h htimely
    unfold QueueDB.expireLoop
    split
    · next hnil =>
      refine ⟨h, Follows.refl now db, fun uid hlate => ?_⟩
      have hmem := (h.mem q uid).2 hlate.1
      rw [hnil] at hmem
      cases hmem
    · next uid rest hcons =>
      have hset : (db.bridge uid).isSet q.bit = true :=
        (h.mem q uid).1 (by rw [hcons]; exact List.mem_cons_self)
      split
      · next hlt =>
        refine ⟨h, Follows.refl now db, fun v hlate => ?_⟩
        have hkept := h.kept q
        rw [hcons] at hkept
        have hmem := (h.mem q v).2 hlate.1
        rw [hcons] at hmem
        exact absurd hlate.2 (Nat.not_le.2 (hkept.lt_of_head ho hlt v hmem))
      · next hge =>
        have hlate : (db.bridge uid).Late now q := ⟨hset, Nat.not_lt.1 hge⟩
        have h' := hg.wf h htimely hcons hlate
        have hf := hg.follows h hcons
        -- the head is late no more, and nobody else is late now
        have hless : ((g db uid).due now q).length < (db.due now q).length := by
          refine PrioQueue.length_due_lt (h'.kept q).nodup (h.mem_due.2 hlate) fun v hv => ?_
          have hv' := h'.mem_due.1 hv
          refine ⟨h.mem_due.2 ((hf v).late q hv'), ?_⟩
          rintro rfl
          exact hg.ends h hcons hv'
        obtain ⟨hwf, hfollows, hnone⟩ := ih (g db uid)
          (Nat.le_of_lt_succ (Nat.lt_of_lt_of_le hless hfuel)) h' (htimely.follows hf)
        exact ⟨hwf, hf.trans hfollows, hnone⟩

/-- The queues that the sweep is done with have nobody who is late. -/
structure Swept (Heap : (ℕ → ℕ) → List ℕ → Prop) (now : ℕ) (unknownEmpty : Bool)
    (qs : List QueueId) (db : QueueDB) : Prop where
  wf : db.WF Heap
  timely : db.Timely now unknownEmpty
  none : ∀ q ∈ qs, ∀ uid, ¬ (db.bridge uid).Late now q

theorem Takes.swept (ho : o.Lawful Heap) {g : QueueDB → ℕ → QueueDB} {qs : List QueueId}
    (hg : Takes Heap now unknownEmpty q g) (h : db.Swept Heap now unknownEmpty qs) :
    (db.expire q now g).Swept Heap now unknownEmpty (q :: qs) := by
  obtain ⟨hwf, hfollows, hnone⟩ :=
    hg.expireLoop ho _ db PrioQueue.length_due_le h.wf h.timely
  refine ⟨hwf, h.timely.follows hfollows, fun q' hq' uid hlate => ?_⟩
  rcases List.mem_cons.1 hq' with rfl | hmem
  · exact hnone uid hlate
  · exact h.none q' hmem uid ((hfollows uid).late q' hlate)

/-! ### The bodies of the loops -/

theorem bridge_popHead_self : (db.popHead o q uid).bridge uid = (db.bridge uid).clear q.bit := by
  rw [popHead, bridge_pop, bridge_modify_self]

theorem bridge_popHead_of_ne (hv : v ≠ uid) : (db.popHead o q uid).bridge v = db.bridge v := by
  rw [popHead, bridge_pop, bridge_modify_of_ne hv]

/-- Without the bit of a queue, a member of `hb_queue` still is one of the node. -/
theorem WF.clear_hb (h : db.WF Heap)
    (hset : ((db.bridge uid).clear q.bit).isSet .inHbQueue = true) :
    ((db.bridge uid).clear q.bit).isSet .authenticated = true := by
  rw [QueuedBridge.isSet_clear_of_ne _ (bit_ne q).1.symm]
  refine h.hb uid ?_
  by_cases he : .inHbQueue = q.bit
  · rw [← he, QueuedBridge.isSet_clear_self] at hset
    cases hset
  · rwa [QueuedBridge.isSet_clear_of_ne _ he] at hset

theorem WF.popHead (ho : o.Lawful Heap) (h : db.WF Heap) (hq : db.heap q = uid :: rest) :
    (db.popHead o q uid).WF Heap := by
  refine h.of_inv uid (h.toInv.popHead ho hq) (fun v hv => bridge_popHead_of_ne hv) fun hset => ?_
  rw [bridge_popHead_self] at hset ⊢
  exact h.clear_hb hset

theorem WF.pop_clear (ho : o.Lawful Heap) (h : db.WF Heap) (hq : db.heap q = uid :: rest) :
    ((db.pop o q).modify uid (·.clear q.bit)).WF Heap := by
  refine h.of_inv uid (h.toInv.pop_clear ho hq) (fun v hv => bridge_modify_of_ne hv)
    fun hset => ?_
  rw [bridge_modify_self, bridge_pop] at hset ⊢
  exact h.clear_hb hset

theorem WF.pop_push (ho : o.Lawful Heap) (h : db.WF Heap) (hq : db.heap q = uid :: rest)
    (hf : Times q f) : (((db.pop o q).modify uid f).push o q uid).WF Heap := by
  refine h.of_inv uid (h.toInv.pop_push ho hq hf) (fun v hv => ?_) fun hset => ?_
  · rw [bridge_push, bridge_modify_of_ne hv, bridge_pop]
  · rw [bridge_push, bridge_modify_self, hf.isSet, bridge_pop] at hset ⊢
    exact h.hb uid hset

theorem follows_popHead : db.Follows now (db.popHead o q uid) := by
  refine Follows.of_uid uid (fun v hv => bridge_popHead_of_ne hv) ?_
  rw [bridge_popHead_self]
  exact QueuedBridge.Follows.clear q.bit

theorem follows_removeAuthenticated : db.Follows now (db.removeAuthenticated o uid) :=
  Follows.of_uid uid (fun _ hv => bridge_removeAuthenticated_of_ne hv)
    (QueuedBridge.Follows.of_gone isSet_removeAuthenticated isSet_removeAuthenticated_authenticated)

theorem follows_enter (hf : Times q f) (hq : q ≠ .challenge)
    (hnow : now < (f ((db.bridge uid).set q.bit)).timeout q)
    (hcount : (f ((db.bridge uid).set q.bit)).challengeCount = (db.bridge uid).challengeCount)
    (hfails : q ≠ .ping →
      (f ((db.bridge uid).set q.bit)).pingFailCount = (db.bridge uid).pingFailCount) :
    db.Follows now (db.enter o q uid f) := by
  refine Follows.of_uid uid (fun v hv => bridge_enter_of_ne hv) ?_
  rw [enter, bridge_push, bridge_modify_self]
  refine QueuedBridge.Follows.waits hq (fun s hs => ?_) (fun q' hq' => ?_) hnow hcount hfails
  · rw [hf.isSet, QueuedBridge.isSet_set_of_ne _ hs]
  · rw [hf.timeout _ _ hq', QueuedBridge.timeout_set]

theorem takes_subs (ho : o.Lawful Heap) (unknownEmpty : Bool) :
    Takes Heap now unknownEmpty .subs (subsExpired o) where
  wf h _ hq _ := h.popHead ho hq
  follows _ _ := follows_popHead
  ends _ _ hlate := by
    rw [subsExpired, bridge_popHead_self] at hlate
    exact Bool.noConfusion ((QueuedBridge.isSet_clear_self _ _).symm.trans hlate.1)

theorem takes_adj (ho : o.Lawful Heap) (unknownEmpty : Bool) :
    Takes Heap now unknownEmpty .adj (adjExpired o now) where
  wf h _ hq _ := by
    unfold adjExpired
    extract_lets db₁
    have h₁ : db₁.WF Heap := h.popHead ho hq
    split
    · next hping =>
      exact h₁.enter ho (QueuedBridge.times_ping now) (Bool.eq_false_iff.2 hping.2)
        fun e => by cases e
    · exact h₁
  follows _ _ := by
    unfold adjExpired
    extract_lets db₁
    split
    · refine follows_popHead.trans (follows_enter (QueuedBridge.times_ping now) ?_ ?_ rfl ?_)
      · decide
      · exact lt_add_secToNs now
      · exact fun hne => absurd rfl hne
    · exact follows_popHead
  ends {db uid _} _ _ := by
    unfold adjExpired
    extract_lets db₁
    have hbit : (db₁.bridge uid).isSet QueueId.adj.bit = false := by
      unfold db₁
      rw [bridge_popHead_self, QueuedBridge.isSet_clear_self]
    rintro ⟨hset, -⟩
    split at hset
    · rw [isSet_enter (QueuedBridge.times_ping now), hbit] at hset
      cases hset
    · exact Bool.noConfusion (hbit.symm.trans hset)

theorem takes_mesh (ho : o.Lawful Heap) (unknownEmpty : Bool) :
    Takes Heap now unknownEmpty .mesh (meshExpired o) where
  wf h _ hq _ := h.pop_clear ho hq
  follows _ _ := by
    refine Follows.of_uid _ (fun v hv => bridge_modify_of_ne hv) ?_
    rw [meshExpired, bridge_modify_self]
    exact QueuedBridge.Follows.clear _
  ends _ _ hlate := by
    rw [meshExpired, bridge_modify_self] at hlate
    exact Bool.noConfusion ((QueuedBridge.isSet_clear_self _ _).symm.trans hlate.1)

/-- A write that no queue reads may come before the pop. -/
theorem modify_pop (hkey : ∀ n q, (f n).timeout q = n.timeout q) :
    (db.pop o q).modify uid f = (db.modify uid f).pop o q := by
  have hk : (db.modify uid f).key q = db.key q := by
    funext v
    by_cases hv : v = uid
    · rw [key, hv, bridge_modify_self, hkey]
      rfl
    · rw [key, bridge_modify_of_ne hv]
      rfl
  unfold pop
  rw [hk]
  unfold modify
  simp [hkey]

theorem takes_ping (ho : o.Lawful Heap) (unknownEmpty : Bool) :
    Takes Heap now unknownEmpty .ping (pingExpired o now unknownEmpty) where
  wf {db uid _} h htimely hq hlate := by
    unfold pingExpired
    extract_lets db₁ db₂
    split
    · exact h.pop_clear ho hq
    · next hauth =>
      have hfails : db₂ = (db.modify uid fun n =>
          { n with pingFailCount := n.pingFailCount + 1 }).pop o .ping :=
        modify_pop fun _ q => by cases q <;> rfl
      have h' := h.modify_same ho uid (f := fun n => { n with pingFailCount := n.pingFailCount + 1 })
        (fun _ _ => rfl) fun _ q => by cases q <;> rfl
      split
      · next hdrop =>
        rw [hfails] at hdrop ⊢
        refine (h'.pop_clear ho hq).removeAuthenticated ho fun hc => ?_
        rw [bridge_pop, bridge_modify_self] at hdrop
        rw [bridge_modify_self, bridge_pop, bridge_modify_self] at hc ⊢
        rw [QueuedBridge.isSet_clear_of_ne _ (by decide)] at hc
        exact htimely uid (Or.inr ⟨hlate, not_not.1 hauth, Nat.le_of_lt_succ hdrop.1, hdrop.2⟩) hc
      · rw [hfails]
        exact h'.pop_push ho hq (QueuedBridge.times_ping now)
  follows {db uid _} _ _ := by
    unfold pingExpired
    extract_lets db₁ db₂
    split
    · refine Follows.of_uid uid (fun v hv => bridge_modify_of_ne hv) ?_
      rw [bridge_modify_self]
      exact QueuedBridge.Follows.clear _
    · split
      · refine Follows.of_uid uid (fun v hv => ?_)
          (QueuedBridge.Follows.of_gone isSet_removeAuthenticated
            isSet_removeAuthenticated_authenticated)
        rw [bridge_removeAuthenticated_of_ne hv, bridge_modify_of_ne hv, bridge_modify_of_ne hv,
          bridge_pop]
      · refine Follows.of_uid uid (fun v hv => ?_) ?_
        · rw [bridge_push, bridge_modify_of_ne hv, bridge_modify_of_ne hv, bridge_pop]
        · rw [bridge_push, bridge_modify_self, bridge_modify_self, bridge_pop]
          refine QueuedBridge.Follows.waits (q := .ping) (by decide) (fun _ _ => rfl)
            (fun q hq => ?_) (lt_add_secToNs now) rfl fun hne => absurd rfl hne
          cases q <;> first | exact absurd rfl hq | rfl
  ends {db uid _} _ _ := by
    unfold pingExpired
    extract_lets db₁ db₂
    split
    · rintro ⟨hset, -⟩
      rw [bridge_modify_self] at hset
      exact Bool.noConfusion ((QueuedBridge.isSet_clear_self _ _).symm.trans hset)
    · split
      · rintro ⟨hset, -⟩
        exact Bool.noConfusion ((isSet_removeAuthenticated .ping).symm.trans hset)
      · rintro ⟨-, htime⟩
        rw [bridge_push, bridge_modify_self] at htime
        exact absurd htime (Nat.not_le.2 (lt_add_secToNs now))

theorem takes_hb (ho : o.Lawful Heap) (unknownEmpty : Bool) :
    Takes Heap now unknownEmpty .hb (hbExpired o) where
  wf {db uid _} h htimely hq hlate := by
    refine (h.popHead ho hq).removeAuthenticated ho fun hc => ?_
    rw [bridge_popHead_self] at hc ⊢
    rw [QueuedBridge.isSet_clear_of_ne _ (by decide)] at hc
    exact htimely uid (Or.inl hlate) hc
  follows _ _ := follows_popHead.trans follows_removeAuthenticated
  ends _ _ hlate := Bool.noConfusion ((isSet_removeAuthenticated .hb).symm.trans hlate.1)

theorem takes_challenge (ho : o.Lawful Heap) (unknownEmpty : Bool) :
    Takes Heap now unknownEmpty .challenge (challengeExpired o) where
  wf {db uid _} h _ hq _ := by
    unfold challengeExpired
    extract_lets db₁
    have h₁ : db₁.WF Heap := h.popHead ho hq
    split
    · refine h₁.modify ho uid (fun _ => rfl) (fun hset => hset) fun q hset => ?_
      cases q with
      | challenge =>
        unfold db₁ at hset
        rw [bridge_popHead_self, QueuedBridge.isSet_clear_self] at hset
        cases hset
      | _ => rfl
    · exact h₁
  follows {db uid _} _ _ := by
    unfold challengeExpired
    extract_lets db₁
    split
    · refine Follows.of_uid uid (fun v hv => ?_) ?_
      · rw [bridge_modify_of_ne hv, bridge_popHead_of_ne hv]
      · rw [bridge_modify_self, bridge_popHead_self]
        refine (QueuedBridge.Follows.clear QueueId.challenge.bit).trans ⟨fun q hq => ?_,
          fun hc => ⟨hc, Or.inr rfl⟩, fun ha => ha, fun _ => rfl⟩
        obtain ⟨hset, htime⟩ := hq
        cases q with
        | challenge => exact Bool.noConfusion ((QueuedBridge.isSet_clear_self _ _).symm.trans hset)
        | _ => exact ⟨hset, htime⟩
    · exact follows_popHead
  ends {db uid _} _ _ := by
    unfold challengeExpired
    extract_lets db₁
    have hbit : (db₁.bridge uid).isSet QueueId.challenge.bit = false := by
      unfold db₁
      rw [bridge_popHead_self, QueuedBridge.isSet_clear_self]
    rintro ⟨hset, -⟩
    split at hset
    · rw [bridge_modify_self] at hset
      exact Bool.noConfusion (hbit.symm.trans hset)
    · exact Bool.noConfusion (hbit.symm.trans hset)

/-! ### The whole sweep -/

/-- The loops of `check_user_timeout` end when nobody is late. -/
theorem expireAll_spec (ho : o.Lawful Heap) (h : db.WF Heap)
    (htimely : db.Timely now unknownEmpty) :
    (db.expireAll o now unknownEmpty).WF Heap ∧
      ∀ q uid, ¬ ((db.expireAll o now unknownEmpty).bridge uid).Late now q := by
  have hstart : db.Swept Heap now unknownEmpty [] := ⟨h, htimely, fun _ hq => by cases hq⟩
  have hend : (db.expireAll o now unknownEmpty).Swept Heap now unknownEmpty
      [.challenge, .hb, .ping, .mesh, .adj, .subs] :=
    (takes_challenge ho unknownEmpty).swept ho <| (takes_hb ho unknownEmpty).swept ho <|
      (takes_ping ho unknownEmpty).swept ho <| (takes_mesh ho unknownEmpty).swept ho <|
        (takes_adj ho unknownEmpty).swept ho <| (takes_subs ho unknownEmpty).swept ho hstart
  refine ⟨hend.wf, fun q => hend.none q ?_⟩
  cases q <;> decide

/-- A call that writes no deadline inside a queue. -/
def KeepsCall (db : QueueDB) (c : Call) (now : ℕ) : Prop :=
  match c with
  | .sendAdjacencyRequest _ => True
  | .addInboxRoute uid primary => db.KeepsRoute uid primary now
  | .removeAuthenticated uid => db.KeepsRemoved uid

instance : ∀ c : Call, Decidable (db.KeepsCall c now)
  | .sendAdjacencyRequest _ => inferInstanceAs (Decidable True)
  | .addInboxRoute uid primary => inferInstanceAs (Decidable (db.KeepsRoute uid primary now))
  | .removeAuthenticated uid => inferInstanceAs (Decidable (db.KeepsRemoved uid))

theorem WF.call (ho : o.Lawful Heap) (h : db.WF Heap) {c : Call} (hkeep : db.KeepsCall c now) :
    (db.call o c now).WF Heap := by
  cases c with
  | sendAdjacencyRequest uid => exact h.sendAdjacencyRequest ho uid now
  | addInboxRoute uid primary => exact h.addInboxRoute ho hkeep
  | removeAuthenticated uid => exact h.removeAuthenticated ho hkeep

theorem follows_sendAdjacencyRequest (later : ℕ) :
    db.Follows now (db.sendAdjacencyRequest o uid (now + later)) := by
  unfold sendAdjacencyRequest
  extract_lets n
  split
  · exact Follows.refl now db
  · refine follows_enter (QueuedBridge.times_adj (·.note (now + later))) (by decide) ?_ rfl
      fun _ => rfl
    exact Nat.lt_of_le_of_lt (Nat.le_add_right now later) (lt_add_secToNs _)

theorem follows_addInboxRoute {primary : Option ℕ} (later : ℕ)
    (hkeep : db.KeepsRoute uid primary (now + later)) :
    db.Follows now (db.addInboxRoute o uid primary (now + later)) := by
  have hroute := rerouted_addInboxRoute o db uid primary (now + later)
  refine Follows.of_uid uid (fun v hv => bridge_addInboxRoute_of_ne primary hv)
    ⟨fun q hlate => ?_, fun hc => ?_, fun ha => ?_, fun _ => hroute.pingFailCount⟩
  · obtain ⟨hset, htime⟩ := hlate
    rw [hroute.isSet] at hset
    refine ⟨hset, ?_⟩
    by_cases hq : q = .hb
    · subst hq
      rwa [timeout_hb_addInboxRoute hkeep hset] at htime
    · rwa [hroute.timeout q hq] at htime
  · rw [hroute.isSet] at hc
    exact ⟨hc, Or.inl hroute.challengeCount⟩
  · rwa [hroute.isSet] at ha

theorem follows_call {c : Call} (later : ℕ) (hkeep : db.KeepsCall c (now + later)) :
    db.Follows now (db.call o c (now + later)) := by
  cases c with
  | sendAdjacencyRequest uid => exact follows_sendAdjacencyRequest later
  | addInboxRoute uid primary => exact follows_addInboxRoute later hkeep
  | removeAuthenticated uid => exact follows_removeAuthenticated

/-- The calls that the sweep ends with make nobody late. -/
theorem calls_spec (ho : o.Lawful Heap) (calls : List (Call × ℕ)) :
    ∀ db : QueueDB, db.WF Heap →
      Run.AllOk (fun db c => db.call o c.1 (now + c.2)) (fun db c => db.KeepsCall c.1 (now + c.2))
        db calls →
      (calls.foldl (fun db c => db.call o c.1 (now + c.2)) db).WF Heap ∧
        db.Follows now (calls.foldl (fun db c => db.call o c.1 (now + c.2)) db) := by
  induction calls with
  | nil => exact fun db h _ => ⟨h, Follows.refl now db⟩
  | cons c calls ih =>
    rintro db h ⟨hkeep, hkeeps⟩
    obtain ⟨hwf, hfollows⟩ := ih _ (h.call ho hkeep) hkeeps
    exact ⟨hwf, (follows_call c.2 hkeep).trans hfollows⟩

/-- A sweep that drops nobody who has a challenge, and whose calls write no deadline
inside a queue. -/
def KeepsSweep (o : PrioQueue ℕ) (db : QueueDB) (now : ℕ) (unknownEmpty : Bool)
    (calls : List (Call × ℕ)) : Prop :=
  (∀ uid ∈ db.due now .hb, db.KeepsRemoved uid) ∧
    (∀ uid ∈ db.due now .ping, (db.bridge uid).isSet .authenticated ∧
      6 ≤ (db.bridge uid).pingFailCount ∧ unknownEmpty → db.KeepsRemoved uid) ∧
    Run.AllOk (fun db c => db.call o c.1 (now + c.2)) (fun db c => db.KeepsCall c.1 (now + c.2))
      (db.expireAll o now unknownEmpty) calls

instance (calls : List (Call × ℕ)) : Decidable (db.KeepsSweep o now unknownEmpty calls) :=
  inferInstanceAs (Decidable ((∀ uid ∈ db.due now .hb, db.KeepsRemoved uid) ∧
    (∀ uid ∈ db.due now .ping, _ ∧ _ ∧ _ → db.KeepsRemoved uid) ∧ Run.AllOk _ _ _ calls))

theorem checkUserTimeout_spec (ho : o.Lawful Heap) (h : db.WF Heap) {calls : List (Call × ℕ)}
    (hkeep : db.KeepsSweep o now unknownEmpty calls) :
    (db.checkUserTimeout o now unknownEmpty calls).WF Heap ∧
      ∀ q uid, ¬ ((db.checkUserTimeout o now unknownEmpty calls).bridge uid).Late now q := by
  obtain ⟨hhb, hping, hcalls⟩ := hkeep
  have htimely : db.Timely now unknownEmpty := by
    rintro uid (hlate | ⟨hlate, hauth, hfails, hempty⟩)
    · exact hhb uid (h.mem_due.2 hlate)
    · exact hping uid (h.mem_due.2 hlate) ⟨hauth, hfails, hempty⟩
  obtain ⟨hwf, hnone⟩ := expireAll_spec ho h htimely
  obtain ⟨hwf', hfollows⟩ := calls_spec ho calls _ hwf hcalls
  exact ⟨hwf', fun q uid hlate => hnone q uid ((hfollows uid).late q hlate)⟩

/-! ## Runs -/

/-- The event writes no deadline inside a queue. -/
def Keeps (o : PrioQueue ℕ) (db : QueueDB) : Event → Prop
  | .call c now => db.KeepsCall c now
  | .onInboxAuth uid m now => db.KeepsAuth uid m now
  | .onHeartbeat uid m now => db.KeepsHeartbeat o uid m now
  | .checkUserTimeout now unknownEmpty calls => db.KeepsSweep o now unknownEmpty calls
  | _ => True

instance : ∀ e : Event, Decidable (db.Keeps o e)
  | .call c now => inferInstanceAs (Decidable (db.KeepsCall c now))
  | .onInboxAuth uid m now => inferInstanceAs (Decidable (db.KeepsAuth uid m now))
  | .onHeartbeat uid m now => inferInstanceAs (Decidable (db.KeepsHeartbeat o uid m now))
  | .checkUserTimeout now unknownEmpty calls =>
    inferInstanceAs (Decidable (db.KeepsSweep o now unknownEmpty calls))
  | .sendSubsRequest _ _ | .recvBloomResult _ | .recvAdjacencyResult _ _ _ _
  | .sendMeshRequest _ _ | .recvMeshResult _ | .recvPongResult _ | .addAuthenticated _ _ _ =>
    inferInstanceAs (Decidable True)

theorem WF.step (ho : o.Lawful Heap) (h : db.WF Heap) {e : Event} (hkeep : db.Keeps o e) :
    (db.step o e).WF Heap := by
  cases e with
  | call c now => exact h.call ho hkeep
  | sendSubsRequest uid now => exact h.sendSubsRequest ho uid now
  | recvBloomResult uid => exact h.leave_id ho .subs uid
  | recvAdjacencyResult uid sync newer now => exact h.recvAdjacencyResult ho uid sync newer now
  | sendMeshRequest uid now => exact h.sendMeshRequest ho uid now
  | recvMeshResult uid => exact h.leave_id ho .mesh uid
  | recvPongResult uid => exact h.recvPongResult ho uid
  | addAuthenticated uid s now => exact h.addAuthenticated ho uid s now
  | onInboxAuth uid m now => exact h.onInboxAuth ho hkeep
  | onHeartbeat uid m now => exact h.onHeartbeat ho hkeep
  | checkUserTimeout now unknownEmpty calls => exact (checkUserTimeout_spec ho h hkeep).1

theorem wf_run (ho : o.Lawful Heap) {es : List Event}
    (hes : Run.AllOk (step o) (Keeps o) init es) : (es.foldl (step o) init).WF Heap :=
  (Run.Reach.start.foldl hes).invariant (wf_init ho) fun _ _ h hkeep => h.step ho hkeep

/-- In every run in which no event writes the deadline of a peer inside the queue, the
queues have the peers with their bits, once, no deadline was written inside them, and the
timer leaves no peer whose deadline has passed. -/
theorem queues_hold_waiting (ho : o.Lawful Heap) {es : List Event}
    (hes : Run.AllOk (step o) (Keeps o) init es) :
    (es.foldl (step o) init).Counted ∧ (es.foldl (step o) init).rekeyed = [] ∧
      ∀ now unknownEmpty calls,
        (es.foldl (step o) init).KeepsSweep o now unknownEmpty calls →
        ∀ q, ((es.foldl (step o) init).checkUserTimeout o now unknownEmpty calls).due now q =
          [] := by
  have h := wf_run ho hes
  refine ⟨fun q uid => (h.kept q).count (h.mem q) uid, h.rekeyed, ?_⟩
  intro now unknownEmpty calls hkeep q
  obtain ⟨hwf, hnone⟩ := checkUserTimeout_spec ho h hkeep
  rw [List.eq_nil_iff_forall_not_mem]
  exact fun uid hmem => hnone q uid (hwf.mem_due.1 hmem)

/-- The first heartbeat of a peer that is to be challenged. -/
def hello : Heartbeat where
  seqno := 1
  interval := 10
  tportId := 0
  ok := false
  stranger := false
  reconnect := none
  challenges := true
  sync := false
  meshSync := false

/-- Two peers are challenged, at 100 and 101 seconds. -/
def twoHellos : List Event :=
  [.onHeartbeat 1 hello 100000000000, .onHeartbeat 2 hello 101000000000]

/-- The first answers and tells of newer subscriptions, the third is known from another peer and
tells of a newer mesh, and requests of all kinds are made and run out. -/
def allQueues : List Event :=
  twoHellos ++ [.onInboxAuth 1 ⟨.fromHandshake, true, true, false, true, ⟨false, none, none, some 1⟩,
      true⟩ 101200000000,
    .sendSubsRequest 1 102000000000, .addAuthenticated 3 ⟨false, some 5, some 10, some 2⟩ 102000000000,
    .onHeartbeat 3 { hello with tportId := 2, ok := true, meshSync := true } 103000000000,
    .checkUserTimeout 107000000000 false [(.sendAdjacencyRequest 3, 5)],
    .sendMeshRequest 1 107500000000, .sendSubsRequest 3 108000000000, .recvPongResult 2]

/-- All queues but that of the challenges have peers, and the timer leaves none that is late. -/
theorem queues_hold_waiting_allQueues :
    let db := allQueues.foldl (step .sorted) init
    [QueueId.hb, .subs, .adj, .mesh, .ping].map db.heap = [[1, 3], [3], [3], [3, 1], [1]] ∧
      db.Counted ∧ db.rekeyed = [] ∧
      ∀ q, (db.checkUserTimeout .sorted 113500000000 true
        [(.sendAdjacencyRequest 1, 7), (.addInboxRoute 2 (some 1), 9)]).due 113500000000 q = [] :=
  ⟨by decide +kernel, (queues_hold_waiting PrioQueue.lawful_sorted (by decide +kernel)).1,
    (queues_hold_waiting PrioQueue.lawful_sorted (by decide +kernel)).2.1,
    (queues_hold_waiting PrioQueue.lawful_sorted (by decide +kernel)).2.2 _ _ _
      (by decide +kernel)⟩

/-- The challenge of the first, which also challenges the node. -/
def itsChallenge : AuthMsg where
  stage := .fromHello
  fields := true
  known := true
  newer := false
  verified := true
  session := ⟨false, none, none, some 0⟩
  sync := false

/-- The answer to the challenge of a peer that is in `challenge_queue` writes its
deadline, and it stays at the head: when that of the other peer has passed, the timer
does not see it. -/
theorem answered_head_hides_late :
    let db := (twoHellos ++ [Event.onInboxAuth 1 itsChallenge 101900000000]).foldl
      (step .sorted) init
    db.rekeyed = [(.challenge, 1)] ∧
      2 ∈ (db.checkUserTimeout .sorted 103500000000 true []).due 103500000000 .challenge := by
  decide +kernel

end QueueDB

end Raims
