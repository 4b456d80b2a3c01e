import Raims.User.RequestQueues

/-!
# The bits of waiting peers say what the queues hold

A peer is in a queue once if its bit is set and else not, and the queues stay in order,
as long as no deadline is written while the peer is in the queue. It is written there
by a heartbeat of a member and by another primary route, by a challenge of a peer that
was challenged before, and by the removal of a peer whose challenge is not answered.
-/

namespace Raims

open PrioQueue (Kept)

namespace QueuedBridge

variable (n : QueuedBridge) (s t : UserNonceState) (q : QueueId)

@[simp]
theorem isSet_set_self : (n.set s).isSet s = true := decide_eq_true (Finset.mem_insert_self s _)

@[simp]
theorem isSet_clear_self : (n.clear s).isSet s = false := decide_eq_false (Finset.notMem_erase s _)

variable {s t} in
@[simp]
theorem isSet_set_of_ne (h : t ≠ s) : (n.set s).isSet t = n.isSet t := by
  simp [set, isSet, h]

variable {s t} in
@[simp]
theorem isSet_clear_of_ne (h : t ≠ s) : (n.clear s).isSet t = n.isSet t := by
  simp [clear, isSet, h]

@[simp]
theorem timeout_set : (n.set s).timeout q = n.timeout q := by cases q <;> rfl

@[simp]
theorem timeout_clear : (n.clear s).timeout q = n.timeout q := by cases q <;> rfl

/-- `f` writes the times of one queue and nothing that another reads. -/
structure Times (q : QueueId) (f : QueuedBridge → QueuedBridge) : Prop where
  isSet : ∀ n s, (f n).isSet s = n.isSet s
  timeout : ∀ n q', q' ≠ q → (f n).timeout q' = n.timeout q'

theorem times_id : Times q id := ⟨fun _ _ => rfl, fun _ _ _ => rfl⟩

theorem times_subs (now : ℕ) : Times .subs fun n => { n with subsMonoTime := now } where
  isSet _ _ := rfl
  timeout n q' h := by cases q' <;> first | exact absurd rfl h | rfl

theorem times_adj (f : ThrottleState → ThrottleState) :
    Times .adj fun n => { n with adjReqThrottle := f n.adjReqThrottle } where
  isSet _ _ := rfl
  timeout n q' h := by cases q' <;> first | exact absurd rfl h | rfl

theorem times_mesh (f : ThrottleState → ThrottleState) :
    Times .mesh fun n => { n with meshReqThrottle := f n.meshReqThrottle } where
  isSet _ _ := rfl
  timeout n q' h := by cases q' <;> first | exact absurd rfl h | rfl

theorem times_ping (now : ℕ) : Times .ping fun n => { n with pingMonoTime := now } where
  isSet _ _ := rfl
  timeout n q' h := by cases q' <;> first | exact absurd rfl h | rfl

theorem times_pingFailCount (f : ℕ → ℕ) :
    Times q fun n => { n with pingFailCount := f n.pingFailCount } where
  isSet _ _ := rfl
  timeout n q' _ := by cases q' <;> rfl

theorem times_challengeCount (f : ℕ → ℕ) :
    Times .challenge fun n => { n with challengeCount := f n.challengeCount } where
  isSet _ _ := rfl
  timeout n q' h := by cases q' <;> first | exact absurd rfl h | rfl

end QueuedBridge

namespace QueueDB

open QueuedBridge (Times)

theorem Session.isSet_hbTimes (s : Session) (now : ℕ) (n : QueuedBridge) (t : UserNonceState) :
    (s.hbTimes now n).isSet t = n.isSet t := by
  unfold hbTimes
  split <;> rfl

theorem Session.challengeMonoTime_hbTimes (s : Session) (now : ℕ) (n : QueuedBridge) :
    (s.hbTimes now n).challengeMonoTime = n.challengeMonoTime := by
  unfold hbTimes
  split <;> rfl

theorem Session.timeout_hbTimes (s : Session) (now : ℕ) (n : QueuedBridge) {q : QueueId}
    (hq : q ≠ .hb) : (s.hbTimes now n).timeout q = n.timeout q := by
  unfold hbTimes
  split
  · cases q <;> first | exact absurd rfl hq | rfl
  · rfl

variable {o : PrioQueue ℕ} {Heap : (ℕ → ℕ) → List ℕ → Prop} {db : QueueDB} {q q' : QueueId}
  {uid v now : ℕ} {rest : List ℕ} {f : QueuedBridge → QueuedBridge}

/-! ## The operations -/

@[simp]
theorem bridge_modify_self : (db.modify uid f).bridge uid = f (db.bridge uid) :=
  Function.update_self uid _ _

@[simp]
theorem bridge_modify_of_ne (h : v ≠ uid) : (db.modify uid f).bridge v = db.bridge v :=
  Function.update_of_ne h _ _

@[simp]
theorem heap_modify : (db.modify uid f).heap = db.heap := rfl

@[simp]
theorem bridge_push : (db.push o q uid).bridge = db.bridge := rfl

@[simp]
theorem bridge_pop : (db.pop o q).bridge = db.bridge := rfl

theorem heap_push :
    (db.push o q uid).heap = Function.update db.heap q (o.push (db.key q) (db.heap q) uid) := rfl

theorem heap_pop : (db.pop o q).heap = Function.update db.heap q (o.pop (db.key q) (db.heap q)) :=
  rfl

theorem heap_remove :
    (db.remove o q uid).heap = Function.update db.heap q (o.remove (db.key q) (db.heap q) uid) :=
  rfl

@[simp]
theorem bridge_remove : (db.remove o q uid).bridge = db.bridge := rfl

/-- The queues are in order, and no deadline was written inside them. -/
structure Ordered (Heap : (ℕ → ℕ) → List ℕ → Prop) (db : QueueDB) : Prop where
  kept : ∀ q, Kept Heap (db.key q) (db.heap q)
  rekeyed : db.rekeyed = []

namespace Ordered

theorem modify (ho : o.Lawful Heap) (h : db.Ordered Heap)
    (hkey : ∀ q, uid ∈ db.heap q → (f (db.bridge uid)).timeout q = (db.bridge uid).timeout q) :
    (db.modify uid f).Ordered Heap where
  kept q := by
    refine (h.kept q).congr ho fun x hx => ?_
    by_cases he : x = uid
    · subst he
      rw [key, bridge_modify_self, hkey q hx]
      rfl
    · rw [key, bridge_modify_of_ne he]
      rfl
  rekeyed := by
    have hnil : (QueueId.all.filter fun q => uid ∈ db.heap q ∧
        (f (db.bridge uid)).timeout q ≠ (db.bridge uid).timeout q) = [] := by
      rw [List.filter_eq_nil_iff]
      intro q _ hq
      obtain ⟨hmem, hne⟩ := of_decide_eq_true hq
      exact hne (hkey q hmem)
    change db.rekeyed ++ List.map _ _ = []
    rw [hnil, h.rekeyed]
    rfl

private theorem update (h : db.Ordered Heap) {heap : List ℕ} (hq : Kept Heap (db.key q) heap) :
    ({ db with heap := Function.update db.heap q heap } : QueueDB).Ordered Heap where
  kept q' := by
    change Kept Heap (db.key q') (Function.update db.heap q heap q')
    by_cases he : q' = q
    · subst he
      rwa [Function.update_self]
    · rw [Function.update_of_ne he]
      exact h.kept q'
  rekeyed := h.rekeyed

theorem push (ho : o.Lawful Heap) (h : db.Ordered Heap) (hx : uid ∉ db.heap q) :
    (db.push o q uid).Ordered Heap :=
  h.update ((h.kept q).push ho hx)

theorem mem_push (ho : o.Lawful Heap) (h : db.Ordered Heap) (hx : uid ∉ db.heap q) :
    v ∈ (db.push o q uid).heap q' ↔ q' = q ∧ v = uid ∨ v ∈ db.heap q' := by
  by_cases he : q' = q
  · subst he
    rw [heap_push, Function.update_self, (h.kept q').mem_push ho hx]
    simp
  · rw [heap_push, Function.update_of_ne he]
    simp [he]

theorem pop (ho : o.Lawful Heap) (h : db.Ordered Heap) (hq : db.heap q = uid :: rest) :
    (db.pop o q).Ordered Heap := by
  have hkept := h.kept q
  rw [hq] at hkept
  refine h.update ?_
  rw [hq]
  exact hkept.pop ho

theorem mem_pop (ho : o.Lawful Heap) (h : db.Ordered Heap) (hq : db.heap q = uid :: rest) :
    v ∈ (db.pop o q).heap q' ↔ v ∈ db.heap q' ∧ ¬ (q' = q ∧ v = uid) := by
  have hkept := h.kept q
  rw [hq] at hkept
  by_cases he : q' = q
  · subst he
    rw [heap_pop, Function.update_self, hq, hkept.mem_pop ho]
    simp
  · rw [heap_pop, Function.update_of_ne he]
    simp [he]

theorem remove (ho : o.Lawful Heap) (h : db.Ordered Heap) (hx : uid ∈ db.heap q) :
    (db.remove o q uid).Ordered Heap :=
  h.update ((h.kept q).remove ho hx)

theorem mem_remove (ho : o.Lawful Heap) (h : db.Ordered Heap) (hx : uid ∈ db.heap q) :
    v ∈ (db.remove o q uid).heap q' ↔ v ∈ db.heap q' ∧ ¬ (q' = q ∧ v = uid) := by
  by_cases he : q' = q
  · subst he
    rw [heap_remove, Function.update_self, (h.kept q').mem_remove ho hx]
    simp
  · rw [heap_remove, Function.update_of_ne he]
    simp [he]

end Ordered

/-- And each has the peers with its bit. -/
structure Inv (Heap : (ℕ → ℕ) → List ℕ → Prop) (db : QueueDB) : Prop extends Ordered Heap db where
  mem : ∀ q uid, uid ∈ db.heap q ↔ (db.bridge uid).isSet q.bit = true

namespace Inv

theorem not_mem (h : db.Inv Heap) (hq : (db.bridge uid).isSet q.bit = false) :
    uid ∉ db.heap q := fun hmem => by
  rw [(h.mem q uid).1 hmem] at hq
  cases hq

theorem modify (ho : o.Lawful Heap) (h : db.Inv Heap)
    (hbits : ∀ q : QueueId, (f (db.bridge uid)).isSet q.bit = (db.bridge uid).isSet q.bit)
    (hkey : ∀ q : QueueId, (db.bridge uid).isSet q.bit = true →
      (f (db.bridge uid)).timeout q = (db.bridge uid).timeout q) :
    (db.modify uid f).Inv Heap where
  toOrdered := h.toOrdered.modify ho fun q hmem => hkey q ((h.mem q uid).1 hmem)
  mem q v := by
    rw [heap_modify, h.mem]
    by_cases hv : v = uid
    · rw [hv, bridge_modify_self, hbits]
    · rw [bridge_modify_of_ne hv]

theorem enter (ho : o.Lawful Heap) (h : db.Inv Heap) (hf : Times q f)
    (hq : (db.bridge uid).isSet q.bit = false) : (db.enter o q uid f).Inv Heap := by
  have hnot : uid ∉ db.heap q := h.not_mem hq
  have hmod : (db.modify uid fun n => f (n.set q.bit)).Ordered Heap := by
    refine h.toOrdered.modify ho fun q' hmem => ?_
    rw [hf.timeout _ q' fun e => hnot (e ▸ hmem), QueuedBridge.timeout_set]
  refine ⟨hmod.push ho hnot, fun q' v => ?_⟩
  rw [QueueDB.enter, hmod.mem_push ho hnot, heap_modify, h.mem, bridge_push]
  by_cases hv : v = uid
  · subst hv
    rw [bridge_modify_self, hf.isSet]
    by_cases he : q' = q
    · simp [he]
    · simp [he]
  · rw [bridge_modify_of_ne hv]
    simp [hv]

theorem leave (ho : o.Lawful Heap) (h : db.Inv Heap) (hf : Times q f)
    (hkey : (db.bridge uid).isSet q.bit = true →
      (f ((db.bridge uid).clear q.bit)).timeout q = (db.bridge uid).timeout q) :
    (db.leave o q uid f).Inv Heap := by
  unfold QueueDB.leave
  split
  · next hset =>
    have hmem : uid ∈ db.heap q := (h.mem q uid).2 hset
    have hmod : (db.modify uid fun n => f (n.clear q.bit)).Ordered Heap := by
      refine h.toOrdered.modify ho fun q' _ => ?_
      by_cases he : q' = q
      · rw [he, hkey hset]
      · rw [hf.timeout _ q' he, QueuedBridge.timeout_clear]
    refine ⟨hmod.remove ho hmem, fun q' v => ?_⟩
    rw [hmod.mem_remove ho hmem, heap_modify, h.mem, bridge_remove]
    by_cases hv : v = uid
    · subst hv
      rw [bridge_modify_self, hf.isSet]
      by_cases he : q' = q
      · simp [he]
      · simp [he]
    · rw [bridge_modify_of_ne hv]
      simp [hv]
  · exact h

/-- A member is taken out and put back. -/
theorem requeue (ho : o.Lawful Heap) (h : db.Inv Heap)
    (hq : (db.bridge uid).isSet q.bit = true) :
    ((db.remove o q uid).push o q uid).Inv Heap := by
  have hmem : uid ∈ db.heap q := (h.mem q uid).2 hq
  have hrem := h.toOrdered.remove ho hmem
  have hnot : uid ∉ (db.remove o q uid).heap q := by
    rw [h.toOrdered.mem_remove ho hmem]
    simp
  refine ⟨hrem.push ho hnot, fun q' v => ?_⟩
  rw [hrem.mem_push ho hnot, h.toOrdered.mem_remove ho hmem, h.mem, bridge_push, bridge_remove]
  by_cases he : q' = q ∧ v = uid
  · obtain ⟨rfl, rfl⟩ := he
    simp [hq]
  · simp [he]

theorem mem_pop (ho : o.Lawful Heap) (h : db.Inv Heap) (hq : db.heap q = uid :: rest) :
    v ∈ (db.pop o q).heap q' ↔ (db.bridge v).isSet q'.bit = true ∧ ¬ (q' = q ∧ v = uid) := by
  rw [h.toOrdered.mem_pop ho hq, h.mem]

theorem popHead (ho : o.Lawful Heap) (h : db.Inv Heap) (hq : db.heap q = uid :: rest) :
    (db.popHead o q uid).Inv Heap := by
  have hmod : (db.modify uid (·.clear q.bit)).Ordered Heap :=
    h.toOrdered.modify ho fun q' _ => QueuedBridge.timeout_clear _ _ _
  refine ⟨hmod.pop ho hq, fun q' v => ?_⟩
  rw [QueueDB.popHead, hmod.mem_pop ho hq, heap_modify, h.mem, bridge_pop]
  by_cases hv : v = uid
  · subst hv
    rw [bridge_modify_self]
    by_cases he : q' = q
    · simp [he]
    · simp [he]
  · rw [bridge_modify_of_ne hv]
    simp [hv]

/-- The head is popped and its bit cleared. -/
theorem pop_clear (ho : o.Lawful Heap) (h : db.Inv Heap) (hq : db.heap q = uid :: rest) :
    ((db.pop o q).modify uid (·.clear q.bit)).Inv Heap := by
  have hpop := h.toOrdered.pop ho hq
  refine ⟨hpop.modify ho fun q' _ => QueuedBridge.timeout_clear _ _ _, fun q' v => ?_⟩
  rw [heap_modify, h.mem_pop ho hq]
  by_cases hv : v = uid
  · subst hv
    rw [bridge_modify_self, bridge_pop]
    by_cases he : q' = q
    · simp [he]
    · simp [he]
  · rw [bridge_modify_of_ne hv, bridge_pop]
    simp [hv]

/-- The head is popped, given another time and pushed. -/
theorem pop_push (ho : o.Lawful Heap) (h : db.Inv Heap) (hq : db.heap q = uid :: rest)
    (hf : Times q f) : (((db.pop o q).modify uid f).push o q uid).Inv Heap := by
  have hset : (db.bridge uid).isSet q.bit = true :=
    (h.mem q uid).1 (by rw [hq]; exact List.mem_cons_self)
  have hnot : uid ∉ (db.pop o q).heap q := by
    rw [h.mem_pop ho hq]
    simp
  have hmod : ((db.pop o q).modify uid f).Ordered Heap :=
    (h.toOrdered.pop ho hq).modify ho fun q' hmem =>
      hf.timeout _ q' fun e => hnot (e ▸ hmem)
  refine ⟨hmod.push ho hnot, fun q' v => ?_⟩
  rw [hmod.mem_push ho hnot, heap_modify, h.mem_pop ho hq, bridge_push]
  by_cases hv : v = uid
  · subst hv
    rw [bridge_modify_self, hf.isSet, bridge_pop]
    by_cases he : q' = q
    · simp [he, hset]
    · simp [he]
  · rw [bridge_modify_of_ne hv, bridge_pop]
    simp [hv]

end Inv

/-! ## Writes outside the queues -/

/-- The write is not to a deadline of `hb_queue`. -/
def KeepsHb (db : QueueDB) (uid : ℕ) (f : QueuedBridge → QueuedBridge) : Prop :=
  (db.bridge uid).isSet .inHbQueue = true →
    (f (db.bridge uid)).timeout .hb = (db.bridge uid).timeout .hb

/-- `add_inbox_route` for a member of `hb_queue` leaves the primary route. -/
def KeepsRoute (db : QueueDB) (uid : ℕ) (primary : Option ℕ) (now : ℕ) : Prop :=
  primary ≠ none ∧ primary ≠ some (db.bridge uid).primaryRoute →
    db.KeepsHb uid fun n => { n with hbMonoTime := now }

/-- `send_challenge` is not for a peer of `challenge_queue`. -/
def KeepsChallenge (db : QueueDB) (uid now : ℕ) : Prop :=
  (db.bridge uid).isSet .challenge = true → (db.bridge uid).challengeMonoTime = now

/-- Nor is the one that answers a challenge, or the retry. -/
def KeepsAuth (db : QueueDB) (uid : ℕ) (m : AuthMsg) (now : ℕ) : Prop :=
  (m.stage = .fromHello → m.fields ∧ m.known ∧ m.verified → db.KeepsChallenge uid now) ∧
    (m.stage = .fromHandshake → m.fields ∧ ¬ m.known →
      m.newer ∧ (db.bridge uid).challengeCount < 5 → (db.bridge uid).isSet .challenge = false)

/-- A heartbeat of a member of `hb_queue` is not newer, and leaves the primary route. -/
def KeepsHeartbeat (o : PrioQueue ℕ) (db : QueueDB) (uid : ℕ) (m : Heartbeat) (now : ℕ) : Prop :=
  m.isStranger (db.bridge uid) = false →
    (m.isFirst (db.bridge uid) → db.KeepsRoute uid m.reconnect now) ∧
      (m.isOffRoute ((db.firstHb o uid m now).bridge uid) = false →
        m.seqno > ((db.firstHb o uid m now).bridge uid).hbSeqno →
          (db.firstHb o uid m now).KeepsHb uid fun n => m.note n now)

/-- `remove_authenticated` is not for a peer of `challenge_queue`. -/
def KeepsRemoved (db : QueueDB) (uid : ℕ) : Prop :=
  (db.bridge uid).isSet .challenge = true → (db.bridge uid).challengeCount = 0

instance : Decidable (db.KeepsHb uid f) := inferInstanceAs (Decidable (_ → _))

instance (primary : Option ℕ) : Decidable (db.KeepsRoute uid primary now) :=
  inferInstanceAs (Decidable (_ ∧ _ → _))

instance : Decidable (db.KeepsChallenge uid now) := inferInstanceAs (Decidable (_ → _))

instance (m : AuthMsg) : Decidable (db.KeepsAuth uid m now) :=
  inferInstanceAs (Decidable ((_ → _ ∧ _ ∧ _ → db.KeepsChallenge uid now) ∧ (_ → _ ∧ _ → _ ∧ _ → _)))

instance (m : Heartbeat) : Decidable (db.KeepsHeartbeat o uid m now) :=
  inferInstanceAs (Decidable (_ → (_ → db.KeepsRoute uid m.reconnect now) ∧
    (_ → _ → (db.firstHb o uid m now).KeepsHb uid _)))

instance : Decidable (db.KeepsRemoved uid) := inferInstanceAs (Decidable (_ → _))

/-! ## Members and their heartbeats -/

/-- Only members are in `hb_queue`. -/
structure WF (Heap : (ℕ → ℕ) → List ℕ → Prop) (db : QueueDB) : Prop extends Inv Heap db where
  hb : ∀ uid, (db.bridge uid).isSet .inHbQueue = true → (db.bridge uid).isSet .authenticated = true

theorem wf_init (ho : o.Lawful Heap) : init.WF Heap where
  kept _ := ho.kept_nil
  rekeyed := rfl
  mem _ _ := ⟨fun h => absurd h List.not_mem_nil, fun h => by cases h⟩
  hb _ h := by cases h

theorem bit_ne (q : QueueId) : q.bit ≠ .authenticated ∧ q.bit ≠ .hasHb ∧ q.bit ≠ .zombie := by
  cases q <;> decide

theorem isSet_enter (hf : Times q f) (s : UserNonceState) :
    ((db.enter o q uid f).bridge uid).isSet s =
      (decide (s = q.bit) || (db.bridge uid).isSet s) := by
  rw [enter, bridge_push, bridge_modify_self, hf.isSet]
  by_cases hs : s = q.bit
  · simp [hs]
  · simp [hs]

theorem bridge_enter_of_ne (hv : v ≠ uid) : (db.enter o q uid f).bridge v = db.bridge v := by
  rw [enter, bridge_push, bridge_modify_of_ne hv]

theorem isSet_sendAdjacencyRequest {s : UserNonceState} (hs : s ≠ .adjacencyRequest) :
    ((db.sendAdjacencyRequest o uid now).bridge uid).isSet s = (db.bridge uid).isSet s := by
  unfold sendAdjacencyRequest
  extract_lets n
  split
  · rfl
  · rw [isSet_enter (QueuedBridge.times_adj (·.note now)), decide_eq_false (show s ≠ QueueId.adj.bit from hs)]
    rfl

/-- Only the route and the time of the heartbeat are other ones. -/
structure Rerouted (n n' : QueuedBridge) : Prop where
  isSet : ∀ s, n'.isSet s = n.isSet s
  timeout : ∀ q, q ≠ .hb → n'.timeout q = n.timeout q
  challengeMonoTime : n'.challengeMonoTime = n.challengeMonoTime
  challengeCount : n'.challengeCount = n.challengeCount
  pingFailCount : n'.pingFailCount = n.pingFailCount

theorem rerouted_addInboxRoute (o : PrioQueue ℕ) (db : QueueDB) (uid : ℕ)
    (primary : Option ℕ) (now : ℕ) :
    Rerouted (db.bridge uid) ((db.addInboxRoute o uid primary now).bridge uid) := by
  unfold addInboxRoute
  cases primary with
  | none => exact ⟨fun _ => rfl, fun _ _ => rfl, rfl, rfl, rfl⟩
  | some tport =>
    dsimp only
    split
    · exact ⟨fun _ => rfl, fun _ _ => rfl, rfl, rfl, rfl⟩
    · split
      · rw [bridge_push, bridge_remove, bridge_modify_self, bridge_modify_self]
        refine ⟨fun _ => rfl, fun q hq => ?_, rfl, rfl, rfl⟩
        cases q <;> first | exact absurd rfl hq | rfl
      · rw [bridge_modify_self]
        refine ⟨fun _ => rfl, fun q _ => ?_, rfl, rfl, rfl⟩
        cases q <;> rfl

/-- A route that is kept leaves the deadline in `hb_queue`. -/
theorem timeout_hb_addInboxRoute {primary : Option ℕ} (hkeep : db.KeepsRoute uid primary now)
    (hset : (db.bridge uid).isSet .inHbQueue = true) :
    ((db.addInboxRoute o uid primary now).bridge uid).timeout .hb =
      (db.bridge uid).timeout .hb := by
  unfold addInboxRoute
  cases primary with
  | none => rfl
  | some tport =>
    dsimp only
    split
    · rfl
    · next hne =>
      split
      · rw [bridge_push, bridge_remove, bridge_modify_self, bridge_modify_self]
        exact hkeep ⟨by simp, fun e => hne (Option.some.inj e).symm⟩ hset
      · rw [bridge_modify_self]
        rfl

theorem bridge_addInboxRoute_of_ne (primary : Option ℕ) (hv : v ≠ uid) :
    (db.addInboxRoute o uid primary now).bridge v = db.bridge v := by
  unfold addInboxRoute
  cases primary with
  | none => rfl
  | some tport =>
    dsimp only
    split
    · rfl
    · split
      · rw [bridge_push, bridge_remove, bridge_modify_of_ne hv, bridge_modify_of_ne hv]
      · rw [bridge_modify_of_ne hv]

/-- The authentication of a peer leaves its challenge. -/
theorem challenge_authenticate (o : PrioQueue ℕ) (db : QueueDB) (uid : ℕ) (m : AuthMsg)
    (now : ℕ) :
    ((db.authenticate o uid m now).bridge uid).isSet .challenge =
        (db.bridge uid).isSet .challenge ∧
      ((db.authenticate o uid m now).bridge uid).challengeMonoTime =
        (db.bridge uid).challengeMonoTime := by
  unfold authenticate addAuthenticated
  split
  · exact ⟨rfl, rfl⟩
  · split
    · exact ⟨rfl, rfl⟩
    · extract_lets db₁
      have hbit : (db₁.bridge uid).isSet .challenge = (db.bridge uid).isSet .challenge := by
        simp [db₁]
      have htime : (db₁.bridge uid).challengeMonoTime = (db.bridge uid).challengeMonoTime := by
        simp only [db₁, bridge_modify_self]
        rfl
      split
      · exact ⟨hbit, htime⟩
      · have hroute := rerouted_addInboxRoute o
          (db₁.modify uid fun n => m.session.hbTimes now (n.set .authenticated)) uid
          m.session.primary now
        rw [hroute.isSet, hroute.challengeMonoTime, bridge_modify_self, Session.isSet_hbTimes,
          QueuedBridge.isSet_set_of_ne _ (by decide), hbit, m.session.challengeMonoTime_hbTimes]
        exact ⟨rfl, htime⟩

theorem bridge_leave : (db.leave o q uid f).bridge uid =
    if (db.bridge uid).isSet q.bit then f ((db.bridge uid).clear q.bit) else db.bridge uid := by
  unfold leave
  split
  · rw [bridge_remove, bridge_modify_self]
  · rfl

theorem isSet_leave (hf : Times q f) (s : UserNonceState) :
    ((db.leave o q uid f).bridge uid).isSet s =
      (!decide (s = q.bit) && (db.bridge uid).isSet s) := by
  rw [bridge_leave]
  by_cases hs : s = q.bit
  · subst hs
    split
    · simp [hf.isSet]
    · next hn => simpa using hn
  · split
    · simp [hf.isSet, hs]
    · simp [hs]

theorem bridge_leave_of_ne (hv : v ≠ uid) : (db.leave o q uid f).bridge v = db.bridge v := by
  unfold leave
  split
  · rw [bridge_remove, bridge_modify_of_ne hv]
  · rfl

namespace WF

/-- Only the bridge of `uid` is another one, and it is no member of `hb_queue` that is
not one of the node. -/
theorem of_inv {db' : QueueDB} (uid : ℕ) (h : db.WF Heap) (hinv : db'.Inv Heap)
    (hne : ∀ v, v ≠ uid → db'.bridge v = db.bridge v)
    (huid : (db'.bridge uid).isSet .inHbQueue = true →
      (db'.bridge uid).isSet .authenticated = true) : db'.WF Heap where
  toInv := hinv
  hb v hv := by
    by_cases he : v = uid
    · subst he
      exact huid hv
    · rw [hne v he] at hv ⊢
      exact h.hb v hv

theorem modify (ho : o.Lawful Heap) (h : db.WF Heap) (uid : ℕ)
    (hbits : ∀ q : QueueId, (f (db.bridge uid)).isSet q.bit = (db.bridge uid).isSet q.bit)
    (hauth : (db.bridge uid).isSet .authenticated = true →
      (f (db.bridge uid)).isSet .authenticated = true)
    (hkey : ∀ q : QueueId, (db.bridge uid).isSet q.bit = true →
      (f (db.bridge uid)).timeout q = (db.bridge uid).timeout q) : (db.modify uid f).WF Heap := by
  refine h.of_inv uid (h.toInv.modify ho hbits hkey)
    (fun v hv => bridge_modify_of_ne hv) fun hset => ?_
  rw [bridge_modify_self] at hset ⊢
  exact hauth (h.hb uid (hbits .hb ▸ hset))

/-- Nothing that a queue reads is written. -/
theorem modify_same (ho : o.Lawful Heap) (h : db.WF Heap) (uid : ℕ)
    (hbits : ∀ n s, (f n).isSet s = n.isSet s)
    (hkey : ∀ n q, (f n).timeout q = n.timeout q) : (db.modify uid f).WF Heap :=
  h.modify ho uid (fun q => hbits _ q.bit) (fun hset => by rwa [hbits]) fun q _ => hkey _ q

theorem enter (ho : o.Lawful Heap) (h : db.WF Heap) (hf : Times q f)
    (hq : (db.bridge uid).isSet q.bit = false)
    (hhb : q = .hb → (db.bridge uid).isSet .authenticated = true) :
    (db.enter o q uid f).WF Heap := by
  refine h.of_inv uid (h.toInv.enter ho hf hq) (fun v hv => bridge_enter_of_ne hv) fun hset => ?_
  rw [isSet_enter hf, Bool.or_eq_true] at hset ⊢
  right
  rcases hset with hset | hset
  · apply hhb
    rw [decide_eq_true_eq] at hset
    exact QueueId.bit_injective hset.symm
  · exact h.hb uid hset

theorem leave (ho : o.Lawful Heap) (h : db.WF Heap) (hf : Times q f)
    (hkey : (db.bridge uid).isSet q.bit = true →
      (f ((db.bridge uid).clear q.bit)).timeout q = (db.bridge uid).timeout q) :
    (db.leave o q uid f).WF Heap := by
  refine h.of_inv uid (h.toInv.leave ho hf hkey) (fun v hv => bridge_leave_of_ne hv) fun hset => ?_
  rw [isSet_leave hf, Bool.and_eq_true] at hset ⊢
  refine ⟨?_, h.hb uid hset.2⟩
  cases q <;> rfl

theorem leave_id (ho : o.Lawful Heap) (h : db.WF Heap) (q : QueueId) (uid : ℕ) :
    (db.leave o q uid id).WF Heap :=
  h.leave ho (QueuedBridge.times_id q) fun _ => QueuedBridge.timeout_clear _ _ _

theorem requeue (ho : o.Lawful Heap) (h : db.WF Heap)
    (hq : (db.bridge uid).isSet q.bit = true) :
    ((db.remove o q uid).push o q uid).WF Heap :=
  ⟨h.toInv.requeue ho hq, h.hb⟩

/-! ### Requests -/

theorem sendSubsRequest (ho : o.Lawful Heap) (h : db.WF Heap) (uid now : ℕ) :
    (db.sendSubsRequest o uid now).WF Heap := by
  unfold QueueDB.sendSubsRequest
  split
  · exact h
  · next hset =>
    exact h.enter ho (QueuedBridge.times_subs now) (Bool.eq_false_iff.2 hset)
      fun e => by cases e

theorem sendAdjacencyRequest (ho : o.Lawful Heap) (h : db.WF Heap) (uid now : ℕ) :
    (db.sendAdjacencyRequest o uid now).WF Heap := by
  unfold QueueDB.sendAdjacencyRequest
  extract_lets n
  split
  · exact h
  · next hthr =>
    simp only [QueuedBridge.throttled, Bool.or_eq_true, not_or, Bool.not_eq_true] at hthr
    exact h.enter ho (QueuedBridge.times_adj (·.note now)) hthr.1 fun e => by cases e

theorem sendMeshRequest (ho : o.Lawful Heap) (h : db.WF Heap) (uid now : ℕ) :
    (db.sendMeshRequest o uid now).WF Heap := by
  unfold QueueDB.sendMeshRequest
  extract_lets n
  split
  · exact h
  · next hthr =>
    simp only [QueuedBridge.throttled, Bool.or_eq_true, not_or, Bool.not_eq_true] at hthr
    exact h.enter ho (QueuedBridge.times_mesh (·.note now)) hthr.1 fun e => by cases e

theorem recvPongResult (ho : o.Lawful Heap) (h : db.WF Heap) (uid : ℕ) :
    (db.recvPongResult o uid).WF Heap :=
  h.leave ho (QueuedBridge.times_pingFailCount _ fun _ => 0) fun _ => rfl

/-! ### Routes and members -/

/-- The primary route of a member of `hb_queue` becomes another one, at the time of its
last heartbeat. -/
theorem addInboxRoute (ho : o.Lawful Heap) (h : db.WF Heap) {primary : Option ℕ}
    (hkeep : db.KeepsRoute uid primary now) :
    (db.addInboxRoute o uid primary now).WF Heap := by
  unfold QueueDB.addInboxRoute
  cases primary with
  | none => exact h
  | some tport =>
    dsimp only
    split
    · exact h
    · next hne =>
      have hroute := h.modify_same ho uid
        (f := fun n => { n with primaryRoute := tport, hbSeqno := 0 }) (fun _ _ => rfl)
        fun _ q => by cases q <;> rfl
      split
      · next hset =>
        refine (hroute.modify ho uid (f := fun n => { n with hbMonoTime := now }) (fun _ => rfl)
          (fun hset => hset) ?_).requeue ho ?_
        · rw [bridge_modify_self] at hset ⊢
          intro q _
          cases q <;> first | exact hkeep ⟨by simp, fun e => hne (Option.some.inj e).symm⟩ hset | rfl
        · rw [bridge_modify_self]
          exact hset
      · exact hroute

end WF

theorem bridge_removeAuthenticated_of_ne (hv : v ≠ uid) :
    (db.removeAuthenticated o uid).bridge v = db.bridge v := by
  unfold removeAuthenticated
  simp only [bridge_modify_of_ne hv, bridge_leave_of_ne hv]

theorem isSet_removeAuthenticated (q : QueueId) :
    ((db.removeAuthenticated o uid).bridge uid).isSet q.bit = false := by
  unfold removeAuthenticated
  rw [bridge_modify_self]
  cases q <;> rfl

theorem isSet_removeAuthenticated_authenticated :
    ((db.removeAuthenticated o uid).bridge uid).isSet .authenticated = false := by
  unfold removeAuthenticated
  rw [bridge_modify_self]
  rfl

/-- The peer has no challenge, or the one it has was not counted. -/
theorem Inv.removeAuthenticated (ho : o.Lawful Heap) (h : db.Inv Heap)
    (hkeep : db.KeepsRemoved uid) :
    (db.removeAuthenticated o uid).Inv Heap := by
  unfold QueueDB.removeAuthenticated
  extract_lets db₁ db₂ db₃ db₄ db₅ db₆ db₇ db₈
  have h₁ : db₁.Inv Heap := h.modify ho (fun q => by simp [(bit_ne q).1])
    fun q _ => QueuedBridge.timeout_clear _ _ _
  have h₂ : db₂.Inv Heap := h₁.modify ho (fun q => by simp [(bit_ne q).2.1])
    fun q _ => QueuedBridge.timeout_clear _ _ _
  have h₃ : db₃.Inv Heap := h₂.leave ho (QueuedBridge.times_id _)
    fun _ => QueuedBridge.timeout_clear _ _ _
  have hcount : (db₃.bridge uid).isSet .challenge = true →
      (db₃.bridge uid).challengeCount = 0 := by
    intro hset
    have hset' : (db.bridge uid).isSet .challenge = true := by
      rw [isSet_leave (QueuedBridge.times_id _)] at hset
      simpa [db₂, db₁] using (Bool.and_eq_true_iff.1 hset).2
    have heq : (db₃.bridge uid).challengeCount = (db.bridge uid).challengeCount := by
      rw [bridge_leave]
      split <;> simp only [db₂, db₁, bridge_modify_self] <;> rfl
    rw [heq]
    exact hkeep hset'
  have h₄ : db₄.Inv Heap := by
    refine h₃.leave ho (QueuedBridge.times_challengeCount fun _ => 0) fun hset => ?_
    change (db₃.bridge uid).challengeMonoTime + Member.secToNs (2 ^ min 0 7) =
      (db₃.bridge uid).challengeMonoTime +
        Member.secToNs (2 ^ min (db₃.bridge uid).challengeCount 7)
    rw [hcount hset]
  have hid : ∀ {db : QueueDB} {q : QueueId}, db.Inv Heap → (db.leave o q uid id).Inv Heap :=
    fun h => h.leave ho (QueuedBridge.times_id _) fun _ => QueuedBridge.timeout_clear _ _ _
  have h₈ : db₈.Inv Heap := hid (hid (hid (hid h₄)))
  have hbits : ∀ q : QueueId, (db₈.bridge uid).isSet q.bit = false := by
    intro q
    rw [isSet_leave (QueuedBridge.times_id _), isSet_leave (QueuedBridge.times_id _),
      isSet_leave (QueuedBridge.times_id _), isSet_leave (QueuedBridge.times_id _),
      isSet_leave (QueuedBridge.times_challengeCount fun _ => 0),
      isSet_leave (QueuedBridge.times_id _)]
    cases q <;> simp
  refine h₈.modify ho (fun q => ?_) fun q hset => ?_
  · rw [hbits]
    cases q <;> rfl
  · rw [hbits] at hset
    cases hset

namespace WF

theorem removeAuthenticated (ho : o.Lawful Heap) (h : db.WF Heap)
    (hkeep : db.KeepsRemoved uid) :
    (db.removeAuthenticated o uid).WF Heap := by
  refine h.of_inv uid (h.toInv.removeAuthenticated ho hkeep)
    (fun v hv => bridge_removeAuthenticated_of_ne hv) fun hset => ?_
  cases (isSet_removeAuthenticated .hb).symm.trans hset

theorem addAuthenticated (ho : o.Lawful Heap) (h : db.WF Heap) (uid : ℕ) (s : Session)
    (now : ℕ) : (db.addAuthenticated o uid s now).WF Heap := by
  unfold QueueDB.addAuthenticated
  split
  · exact h
  · extract_lets db₁
    have h₁ : db₁.WF Heap := h.modify ho uid (fun q => by simp [(bit_ne q).2.2])
      (fun hset => by simpa using hset) fun q _ => QueuedBridge.timeout_clear _ _ _
    split
    · exact h₁
    · next hset =>
      -- it was no member, so it is not in `hb_queue`
      have hhb : (db₁.bridge uid).isSet .inHbQueue = false := by
        rw [← Bool.not_eq_true]
        exact fun hq => hset (h₁.hb uid hq)
      have h₂ : (db₁.modify uid fun n => s.hbTimes now (n.set .authenticated)).WF Heap := by
        refine h₁.modify ho uid (fun q => ?_) (fun _ => ?_) fun q hq => ?_
        · rw [s.isSet_hbTimes, QueuedBridge.isSet_set_of_ne _ (bit_ne q).1]
        · rw [s.isSet_hbTimes, QueuedBridge.isSet_set_self]
        · rw [s.timeout_hbTimes now _ fun e => ?_, QueuedBridge.timeout_set]
          rw [e] at hq
          exact Bool.noConfusion (hhb.symm.trans hq)
      refine h₂.addInboxRoute ho fun _ hq => ?_
      rw [bridge_modify_self, s.isSet_hbTimes, QueuedBridge.isSet_set_of_ne _ (by decide)] at hq
      exact Bool.noConfusion (hhb.symm.trans hq)

theorem recvAdjacencyResult (ho : o.Lawful Heap) (h : db.WF Heap) (uid : ℕ)
    (sync : Option (ℕ × Session)) (newer : Bool) (now : ℕ) :
    (db.recvAdjacencyResult o uid sync newer now).WF Heap := by
  unfold QueueDB.recvAdjacencyResult
  extract_lets db₁ db₂
  have h₁ : db₁.WF Heap := h.leave_id ho .adj uid
  have h₂ : db₂.WF Heap := by
    cases sync with
    | none => exact h₁
    | some p => exact h₁.addAuthenticated ho p.1 p.2 now
  split
  · exact h₂.modify_same ho uid (fun _ _ => rfl) fun _ q => by cases q <;> rfl
  · exact h₂

/-! ### Challenges -/

theorem sendChallenge (ho : o.Lawful Heap) (h : db.WF Heap)
    (hkeep : db.KeepsChallenge uid now) : (db.sendChallenge uid now).WF Heap := by
  refine h.modify ho uid (fun _ => rfl) (fun hset => hset) fun q hset => ?_
  cases q <;> try rfl
  change now + _ = (db.bridge uid).challengeMonoTime + _
  rw [hkeep hset]

theorem challenge (ho : o.Lawful Heap) (h : db.WF Heap)
    (hkeep : db.KeepsChallenge uid now) : (db.challenge o uid now).WF Heap := by
  unfold QueueDB.challenge
  extract_lets db₁
  have h₁ : db₁.WF Heap := h.sendChallenge ho hkeep
  split
  · exact h₁
  · next hset =>
    exact h₁.enter ho (QueuedBridge.times_challengeCount (· + 1)) (Bool.eq_false_iff.2 hset)
      fun e => by cases e

theorem retry (ho : o.Lawful Heap) (h : db.WF Heap) {m : AuthMsg}
    (hkeep : m.newer = true ∧ (db.bridge uid).challengeCount < 5 →
      (db.bridge uid).isSet .challenge = false) : (db.retry uid m now).WF Heap := by
  unfold QueueDB.retry
  split
  · next hretry =>
    have hset := hkeep hretry
    have h₁ : (db.modify uid fun n => { n with challengeCount := n.challengeCount + 1 }).WF
        Heap := by
      refine h.modify ho uid (fun _ => rfl) (fun hset => hset) fun q hq => ?_
      cases q <;> first | exact Bool.noConfusion (hset.symm.trans hq) | rfl
    refine h₁.sendChallenge ho fun hq => ?_
    rw [bridge_modify_self] at hq
    exact Bool.noConfusion (hset.symm.trans hq)
  · exact h

theorem authenticate (ho : o.Lawful Heap) (h : db.WF Heap) (uid : ℕ) (m : AuthMsg) (now : ℕ) :
    (db.authenticate o uid m now).WF Heap := by
  unfold QueueDB.authenticate
  split
  · exact h
  · exact h.addAuthenticated ho uid m.session now

theorem authDone (ho : o.Lawful Heap) (h : db.WF Heap) (uid : ℕ) (m : AuthMsg) (now : ℕ) :
    (db.authDone o uid m now).WF Heap := by
  unfold QueueDB.authDone
  split
  · next hauth =>
    extract_lets db₁
    have h₁ : db₁.WF Heap := by
      unfold db₁
      split
      · exact h.sendAdjacencyRequest ho uid now
      · exact h
    have hauth₁ : (db₁.bridge uid).isSet .authenticated = true := by
      unfold db₁
      split
      · rw [isSet_sendAdjacencyRequest (by decide)]
        exact hauth
      · exact hauth
    split
    · exact h₁
    · next hset =>
      exact h₁.enter ho (QueuedBridge.times_id _) (Bool.eq_false_iff.2 hset) fun _ => hauth₁
  · exact h

theorem onInboxAuth (ho : o.Lawful Heap) (h : db.WF Heap) {m : AuthMsg}
    (hkeep : db.KeepsAuth uid m now) : (db.onInboxAuth o uid m now).WF Heap := by
  unfold QueueDB.onInboxAuth
  split
  · next hstage =>
    split
    · next hok =>
      refine ((h.authenticate ho uid m now).challenge ho fun hset => ?_).authDone ho uid m now
      obtain ⟨hbit, htime⟩ := challenge_authenticate o db uid m now
      rw [hbit] at hset
      rw [htime]
      exact hkeep.1 hstage hok hset
    · exact h
  · next hstage =>
    split
    · next hfields =>
      split
      · split
        · exact (h.authenticate ho uid m now).authDone ho uid m now
        · exact h
      · next hknown =>
        exact h.retry ho (hkeep.2 hstage ⟨hfields, hknown⟩)
    · exact h
  · exact h.authDone ho uid m now
  · exact h

/-! ### Heartbeats -/

theorem firstHb (ho : o.Lawful Heap) (h : db.WF Heap) {m : Heartbeat}
    (hkeep : m.isFirst (db.bridge uid) → db.KeepsRoute uid m.reconnect now) :
    (db.firstHb o uid m now).WF Heap := by
  unfold QueueDB.firstHb
  split
  · next hfirst =>
    have h₁ : (db.modify uid (·.set .hasHb)).WF Heap := h.modify ho uid
      (fun q => by simp [(bit_ne q).2.1]) (fun hset => by simpa using hset)
      fun q _ => QueuedBridge.timeout_set _ _ _
    refine h₁.addInboxRoute ho fun hne hset => ?_
    rw [bridge_modify_self] at hne hset ⊢
    exact hkeep hfirst hne (by simpa using hset)
  · exact h

theorem newHb (ho : o.Lawful Heap) (h : db.WF Heap) {m : Heartbeat}
    (hkeep : m.seqno > (db.bridge uid).hbSeqno → db.KeepsHb uid fun n => m.note n now) :
    (db.newHb o uid m now).WF Heap := by
  unfold QueueDB.newHb
  split
  · next hnew =>
    extract_lets db₁ n
    have h₁ : db₁.WF Heap := by
      refine h.modify ho uid (fun _ => rfl) (fun hset => hset) fun q hset => ?_
      cases q <;> first | exact hkeep hnew hset | rfl
    split
    · next hchal =>
      exact h₁.challenge ho fun hset => absurd (Or.inr hset) hchal.2
    · exact h₁
  · exact h

theorem requeueHb (ho : o.Lawful Heap) (h : db.WF Heap)
    (hauth : (db.bridge uid).isSet .authenticated = true) : (db.requeueHb o uid).WF Heap := by
  unfold QueueDB.requeueHb
  split
  · next hset => exact h.requeue ho hset
  · next hset =>
    exact h.enter ho (QueuedBridge.times_id _) (Bool.eq_false_iff.2 hset) fun _ => hauth

theorem onHeartbeat (ho : o.Lawful Heap) (h : db.WF Heap) {m : Heartbeat}
    (hkeep : db.KeepsHeartbeat o uid m now) : (db.onHeartbeat o uid m now).WF Heap := by
  unfold QueueDB.onHeartbeat
  split
  · exact h
  · next hstranger =>
    extract_lets db₁ db₂ db₃ db₄
    obtain ⟨hfirst, hnewer⟩ := hkeep (Bool.eq_false_iff.2 hstranger)
    have h₁ : db₁.WF Heap := h.firstHb ho hfirst
    split
    · exact h₁
    · next hroute =>
      have h₂ : db₂.WF Heap := h₁.newHb ho (hnewer (Bool.eq_false_iff.2 hroute))
      split
      · next hok =>
        have h₃ : db₃.WF Heap := h₂.requeueHb ho hok.2
        have h₄ : db₄.WF Heap := by
          unfold db₄
          split
          · exact h₃.sendAdjacencyRequest ho uid now
          · exact h₃
        split
        · exact h₄.sendMeshRequest ho uid now
        · exact h₄
      · exact h₂

end WF

end QueueDB

end Raims
