import Mathlib.Algebra.Ring.Nat
import Mathlib.Data.List.Basic
import Mathlib.Logic.Function.Basic
import Raims.Lib.PrioQueue

/-!
# Peers that are asked for (`process_pending_peer`)

A bridge that a node has heard of and has no peer for is asked for, at one after another
of the peers that know it, until it is known, has said good bye, or has been asked for too
often. The queue of these requests is ordered by `is_pending_older`, that compares the
other way round than the orders of the other queues: in front is the request whose time is
the latest. The loop stops at the first request that is not late, so it works only when
all are, and then it stops at the first that it puts back.

`kv::PrioQueue` is a parameter, with the orders of all queues read the same way: what is
older by the comparator goes behind.
-/

namespace Raims

/-! ## Requests -/

/-- `PendingUid` -/
structure PendingUid where
  uid : ℕ
  tportId : ℕ
deriving DecidableEq

/-- `UserPendingRoute`: the peers that may be asked, in a circle, and the one at `ptr`. -/
structure UserPendingRoute where
  bridgeNonce : ℕ
  peers : List PendingUid
  ptr : ℕ
  pendingAddMono : ℕ
  requestTimeMono : ℕ
  requestCount : ℕ
deriving DecidableEq

namespace UserPendingRoute

/-- `MAX_REQUESTS` -/
def maxRequests : ℕ := 2

/-- `rq_timeout`: a quarter of a second. -/
def rqTimeout : ℕ := 250000000

/-- `pending_timeout`, of 64 bits. -/
def pendingTimeout (p : UserPendingRoute) : ℕ :=
  (p.requestTimeMono + p.requestCount * rqTimeout) % 2 ^ 64

/-- The order of `is_pending_older`, as a key of which the least is in front: an older
request, one with the earlier time, goes behind. -/
def key (p : UserPendingRoute) : ℕ := 2 ^ 64 - 1 - p.pendingTimeout

theorem pendingTimeout_lt (p : UserPendingRoute) : p.pendingTimeout < 2 ^ 64 :=
  Nat.mod_lt _ (by decide)

/-- `is_pending_older` -/
theorem pendingTimeout_lt_iff (p q : UserPendingRoute) :
    p.pendingTimeout < q.pendingTimeout ↔ q.key < p.key := by
  have hp := p.pendingTimeout_lt
  have hq := q.pendingTimeout_lt
  unfold key
  omega

/-- The turn goes to the next peer and the time of the request is noted. -/
def request (p : UserPendingRoute) (now : ℕ) : UserPendingRoute :=
  { p with
    ptr := if p.ptr + 1 < p.peers.length then p.ptr + 1 else 0
    pendingAddMono := if p.pendingAddMono = 0 then now else p.pendingAddMono
    requestTimeMono := now
    requestCount := (p.requestCount + 1) % 2 ^ 16 }

end UserPendingRoute

/-! ## The queue -/

/-- `UserDB`, the requests by name and `pending_queue`. `sent` has the requests and the peers
they were sent to. -/
structure PendingDB where
  route : ℕ → UserPendingRoute
  heap : List ℕ
  sent : List (ℕ × PendingUid)

namespace PendingDB

/-- What `kv::PrioQueue` compares. -/
def key (db : PendingDB) : ℕ → ℕ := fun id => (db.route id).key

def late (db : PendingDB) (now id : ℕ) : Prop := (db.route id).pendingTimeout ≤ now

/-- A request is given up: its bridge is a zombie that said good bye, or it was made too
often. -/
def gone (bye : ℕ → Bool) (p : UserPendingRoute) : Bool :=
  bye p.bridgeNonce || decide (UserPendingRoute.maxRequests < p.requestCount)

section Process

/- `bye` are the zombies that said good bye, and `reach` the peers that are authenticated and
have a route. -/
variable (o : PrioQueue ℕ) (bye : ℕ → Bool) (reach : PendingUid → Bool) (now : ℕ)

def pop (db : PendingDB) : PendingDB := { db with heap := o.pop db.key db.heap }

/-- `request_pending_peer` with the turn and the time, and the push. -/
def again (db : PendingDB) (id : ℕ) : PendingDB :=
  let p := (db.route id).request now
  let route := Function.update db.route id p
  { route := route
    heap := o.push (fun i => (route i).key) db.heap id
    sent := db.sent ++ ((p.peers[p.ptr]?.filter reach).map fun uid => (id, uid)).toList }

/-- `process_pending_peer` in so many rounds of its loop; none when it has not ended. -/
def process (db : PendingDB) : ℕ → Option PendingDB
  | 0 => none
  | fuel + 1 =>
    match db.heap with
    | [] => some db
    | id :: _ =>
      if now < (db.route id).pendingTimeout then some db
      else if gone bye (db.route id) then process (db.pop o) fuel
      else process ((db.pop o).again o reach now id) fuel

end Process

/-- The order in which the queue gives its members when it is emptied. -/
def drain (o : PrioQueue ℕ) (key : ℕ → ℕ) : ℕ → List ℕ → List ℕ
  | 0, _ => []
  | fuel + 1, q =>
    match q with
    | [] => []
    | id :: _ => id :: drain o key fuel (o.pop key q)

/-- Nothing is late, or all requests are and each that comes before the last is given up. -/
def AllDone (o : PrioQueue ℕ) (bye : ℕ → Bool) (now : ℕ) (db : PendingDB) : Prop :=
  (∀ id ∈ db.heap, ¬ db.late now id) ∨
    (∀ id ∈ db.heap, db.late now id) ∧
      ∀ id ∈ (drain o db.key db.heap.length db.heap).dropLast, gone bye (db.route id) = true

variable {o : PrioQueue ℕ} {Heap : (ℕ → ℕ) → List ℕ → Prop} {bye : ℕ → Bool}
  {reach : PendingUid → Bool} {now : ℕ} {db : PendingDB}

/-- A request that is made is late only after a quarter of a second. -/
theorem lt_pendingTimeout_request (hclock : now < 2 ^ 63) {p : UserPendingRoute}
    (h : p.requestCount ≤ UserPendingRoute.maxRequests) : now < (p.request now).pendingTimeout := by
  have hle : p.requestCount ≤ 2 := h
  have hcount : (p.request now).requestCount = p.requestCount + 1 := Nat.mod_eq_of_lt (by omega)
  have htime : (p.request now).requestTimeMono = now := rfl
  unfold UserPendingRoute.pendingTimeout UserPendingRoute.rqTimeout
  rw [hcount, htime, Nat.mod_eq_of_lt (by omega)]
  omega

theorem drain_eq_nil_iff {key : ℕ → ℕ} {q : List ℕ} : drain o key q.length q = [] ↔ q = [] := by
  cases q with
  | nil => exact iff_of_true rfl rfl
  | cons id q => exact iff_of_false (List.cons_ne_nil _ _) (List.cons_ne_nil _ _)

theorem forall_dropLast_cons {P : ℕ → Prop} (id : ℕ) (l : List ℕ) :
    (∀ i ∈ (id :: l).dropLast, P i) ↔ l = [] ∨ P id ∧ ∀ i ∈ l.dropLast, P i := by
  cases l with
  | nil => simp
  | cons j l => simp

theorem process_cons {id : ℕ} {rest : List ℕ} (h : db.heap = id :: rest) (fuel : ℕ) :
    process o bye reach now db (fuel + 1) =
      if now < (db.route id).pendingTimeout then some db
      else if gone bye (db.route id) then process o bye reach now (db.pop o) fuel
      else process o bye reach now ((db.pop o).again o reach now id) fuel := by
  rw [process, h]

/-- Putting a request back ends the loop: no other is in front of it. -/
theorem process_again (ho : o.Lawful Heap) (hclock : now < 2 ^ 63) {id : ℕ} (hid : id ∉ db.heap)
    (hkept : PrioQueue.Kept Heap db.key db.heap)
    (hcount : (db.route id).requestCount ≤ UserPendingRoute.maxRequests) (fuel : ℕ) :
    process o bye reach now (db.again o reach now id) (fuel + 1) = some (db.again o reach now id) ∧
      ((∀ i ∈ (db.again o reach now id).heap, ¬ (db.again o reach now id).late now i) ↔
        ∀ i ∈ db.heap, ¬ db.late now i) := by
  have hroute : ∀ i ∈ db.heap, (db.again o reach now id).route i = db.route i := by
    intro i hi
    exact Function.update_of_ne (ne_of_mem_of_not_mem hi hid) _ _
  have hself : (db.again o reach now id).route id = (db.route id).request now :=
    Function.update_self ..
  have hlt : now < ((db.again o reach now id).route id).pendingTimeout := by
    rw [hself]
    exact lt_pendingTimeout_request hclock hcount
  have hkept' : PrioQueue.Kept Heap (db.again o reach now id).key db.heap :=
    hkept.congr ho fun i hi => congrArg UserPendingRoute.key (hroute i hi)
  have hmem : ∀ i, i ∈ (db.again o reach now id).heap ↔ i = id ∨ i ∈ db.heap :=
    fun i => hkept'.mem_push ho hid
  have hpushed : PrioQueue.Kept Heap (db.again o reach now id).key (db.again o reach now id).heap :=
    hkept'.push ho hid
  constructor
  · cases hheap : (db.again o reach now id).heap with
    | nil => rw [process, hheap]
    | cons i rest =>
      have hle : (db.again o reach now id).key i ≤ (db.again o reach now id).key id := by
        rw [hheap] at hpushed
        have hin := (hmem id).mpr (Or.inl rfl)
        rw [hheap] at hin
        rcases List.mem_cons.mp hin with rfl | hin
        · exact Nat.le_refl _
        · exact ho.top hpushed.heap id hin
      have hfront : now < ((db.again o reach now id).route i).pendingTimeout := by
        have hnot := mt (UserPendingRoute.pendingTimeout_lt_iff _ _).mp (Nat.not_lt.mpr hle)
        exact Nat.lt_of_lt_of_le hlt (Nat.not_lt.mp hnot)
      rw [process_cons hheap, if_pos hfront]
  · constructor
    · intro h i hi
      have hnot := h i ((hmem i).mpr (Or.inr hi))
      rwa [late, hroute i hi] at hnot
    · intro h i hi
      rcases (hmem i).mp hi with rfl | hi
      · exact Nat.not_le.mpr hlt
      · rw [late, hroute i hi]
        exact h i hi

/-- The loop on a queue of requests that are all late: it takes them in turn while they are
given up, and the first that is put back is in front of those that are left. -/
theorem process_late (ho : o.Lawful Heap) (hclock : now < 2 ^ 63) {n : ℕ}
    (hn : db.heap.length = n) (hkept : PrioQueue.Kept Heap db.key db.heap)
    (hlate : ∀ id ∈ db.heap, db.late now id) {fuel : ℕ} (hfuel : n + 1 < fuel) :
    ∃ db', process o bye reach now db fuel = some db' ∧
      ((∀ id ∈ db'.heap, ¬ db'.late now id) ↔
        ∀ id ∈ (drain o db.key n db.heap).dropLast, gone bye (db.route id) = true) := by
  induction n generalizing db fuel with
  | zero =>
    obtain ⟨fuel, rfl⟩ := Nat.exists_eq_succ_of_ne_zero (Nat.ne_zero_of_lt hfuel)
    have hnil : db.heap = [] := List.length_eq_zero_iff.mp hn
    refine ⟨db, by rw [process, hnil], ?_⟩
    simp [hnil, drain]
  | succ n ih =>
    obtain ⟨fuel, rfl⟩ := Nat.exists_eq_succ_of_ne_zero (Nat.ne_zero_of_lt hfuel)
    obtain ⟨id, rest, hheap⟩ := List.exists_cons_of_length_eq_add_one hn
    have hkept' : PrioQueue.Kept Heap db.key (id :: rest) := hheap ▸ hkept
    have hperm : (o.pop db.key db.heap).Perm rest := by
      rw [hheap]
      exact ho.pop_perm hkept'.heap
    have hlen : (o.pop db.key db.heap).length = n := by
      rw [hperm.length_eq]
      rw [hheap] at hn
      exact Nat.succ_injective hn
    have hpop : PrioQueue.Kept Heap db.key (o.pop db.key db.heap) := by
      rw [hheap]
      exact hkept'.pop ho
    have hnotmem : id ∉ o.pop db.key db.heap := fun h =>
      (List.nodup_cons.mp hkept'.nodup).1 (hperm.mem_iff.mp h)
    have hnow : ¬ now < (db.route id).pendingTimeout := by
      have h := hlate id (by rw [hheap]; exact List.mem_cons_self)
      exact Nat.not_lt.mpr h
    have hlate' : ∀ i ∈ o.pop db.key db.heap, db.late now i := fun i hi =>
      hlate i (by rw [hheap]; exact List.mem_cons_of_mem _ (hperm.mem_iff.mp hi))
    have hdrain : drain o db.key (n + 1) db.heap = id :: drain o db.key n (o.pop db.key db.heap) := by
      rw [hheap]
      rfl
    have hnil : drain o db.key n (o.pop db.key db.heap) = [] ↔ o.pop db.key db.heap = [] := by
      rw [← hlen]
      exact drain_eq_nil_iff
    rw [process_cons hheap, if_neg hnow, hdrain, forall_dropLast_cons]
    by_cases hgone : gone bye (db.route id) = true
    · rw [if_pos hgone]
      obtain ⟨db', hprocess, hiff⟩ := ih (show (db.pop o).heap.length = n from hlen) hpop hlate'
        (Nat.lt_of_succ_lt_succ hfuel)
      refine ⟨db', hprocess, hiff.trans ?_⟩
      constructor
      · intro h
        exact Or.inr ⟨hgone, h⟩
      · rintro (h | h)
        · show ∀ i ∈ (drain o db.key n (o.pop db.key db.heap)).dropLast, _
          rw [h]
          simp
        · exact h.2
    · rw [if_neg hgone]
      have hcount : (db.route id).requestCount ≤ UserPendingRoute.maxRequests := by
        simp only [gone, Bool.or_eq_true, decide_eq_true_eq, not_or, Nat.not_lt] at hgone
        exact hgone.2
      obtain ⟨fuel, rfl⟩ := Nat.exists_eq_succ_of_ne_zero
        (show fuel ≠ 0 from fun h => by rw [h] at hfuel; omega)
      obtain ⟨hends, hiff⟩ :=
        @process_again o Heap bye reach now (db.pop o) ho hclock id hnotmem hpop hcount fuel
      refine ⟨_, hends, hiff.trans ?_⟩
      rw [hnil]
      constructor
      · intro h
        left
        rw [List.eq_nil_iff_forall_not_mem]
        intro i hi
        exact h i hi (hlate' i hi)
      · rintro (h | h)
        · show ∀ i ∈ o.pop db.key db.heap, _
          rw [h]
          simp
        · exact absurd h.1 hgone

/-- **The loop ends, and leaves nothing late in the queue exactly when nothing was late, or all
was and each request before the last is given up.** -/
theorem process_pending_iff (ho : o.Lawful Heap) (hkept : PrioQueue.Kept Heap db.key db.heap)
    (hclock : now < 2 ^ 63) (bye : ℕ → Bool) (reach : PendingUid → Bool) {fuel : ℕ}
    (hfuel : db.heap.length + 1 < fuel) :
    ∃ db', process o bye reach now db fuel = some db' ∧
      ((∀ id ∈ db'.heap, ¬ db'.late now id) ↔ db.AllDone o bye now) := by
  by_cases hlate : ∀ id ∈ db.heap, db.late now id
  · obtain ⟨db', hprocess, hiff⟩ := process_late ho hclock rfl hkept hlate hfuel
    refine ⟨db', hprocess, hiff.trans ?_⟩
    constructor
    · intro h
      exact Or.inr ⟨hlate, h⟩
    · rintro (h | h)
      · have hnil : db.heap = [] := by
          rw [List.eq_nil_iff_forall_not_mem]
          intro id hid
          exact h id hid (hlate id hid)
        rw [hnil]
        simp [drain]
      · exact h.2
  · obtain ⟨fuel, rfl⟩ := Nat.exists_eq_succ_of_ne_zero (Nat.ne_zero_of_lt hfuel)
    refine ⟨db, ?_, ?_⟩
    · cases hheap : db.heap with
      | nil => rw [process, hheap]
      | cons id rest =>
        rw [process_cons hheap, if_pos]
        -- the front is the latest, and some request is not late
        by_contra hnot
        apply hlate
        intro i hi
        rw [hheap] at hi hkept
        have hle : db.key id ≤ db.key i := by
          rcases List.mem_cons.mp hi with rfl | hi
          · exact Nat.le_refl _
          · exact ho.top hkept.heap i hi
        have hback := mt (UserPendingRoute.pendingTimeout_lt_iff _ _).mp (Nat.not_lt.mpr hle)
        exact Nat.le_trans (Nat.not_lt.mp hback) (Nat.not_lt.mp hnot)
    · exact (or_iff_left fun h => hlate h.1).symm

/-! ## Requests that were never made -/

def waiting (n : ℕ) : PendingDB where
  route id := ⟨id, [⟨1, 0⟩], 0, 0, 0, 0⟩
  heap := List.range n
  sent := []

theorem kept_waiting (n : ℕ) :
    PrioQueue.Kept (fun key q => q.Pairwise fun y z => key y ≤ key z) (waiting n).key
      (waiting n).heap :=
  ⟨List.nodup_range, List.pairwise_of_forall fun _ _ => Nat.le_refl _⟩

theorem late_waiting (n now id : ℕ) : (waiting n).late now id := by
  simp [late, waiting, UserPendingRoute.pendingTimeout]

/-- Three requests that are late at 10 ^ 9: 1 was made three times, the bridge of 0 said good
bye, and the turn of 2 goes from its first peer to the second. -/
def threeLate : PendingDB where
  route
    | 0 => ⟨7, [⟨1, 0⟩], 0, 300000000, 300000000, 1⟩
    | 1 => ⟨8, [⟨1, 0⟩, ⟨4, 2⟩], 1, 50000000, 100000000, 3⟩
    | _ => ⟨9, [⟨1, 0⟩, ⟨4, 2⟩, ⟨5, 2⟩], 0, 200000000, 200000000, 1⟩
  heap := [1, 0, 2]
  sent := []

theorem process_pending_iff_three :
    PrioQueue.Kept (fun key q => q.Pairwise fun y z => key y ≤ key z) threeLate.key
        threeLate.heap ∧
      ∃ db', process PrioQueue.sorted (fun nonce => nonce == 7) (fun _ => true) 1000000000
          threeLate 5 = some db' ∧
        db'.heap = [2] ∧ db'.sent = [(2, ⟨4, 2⟩)] ∧ ∀ id ∈ db'.heap, ¬ db'.late 1000000000 id := by
  have hkept : PrioQueue.Kept (fun key q => q.Pairwise fun y z => key y ≤ key z) threeLate.key
      threeLate.heap := ⟨by decide, by decide⟩
  refine ⟨hkept, ?_⟩
  obtain ⟨db', hprocess, hiff⟩ := process_pending_iff PrioQueue.lawful_sorted hkept
    (show 1000000000 < 2 ^ 63 by decide) (fun nonce => nonce == 7) (fun _ => true)
    (show 4 < 5 by decide)
  have hrun : (process PrioQueue.sorted (fun nonce => nonce == 7) (fun _ => true) 1000000000
      threeLate 5).map (fun db => (db.heap, db.sent)) = some ([2], [(2, ⟨4, 2⟩)]) := by
    decide
  rw [hprocess] at hrun
  obtain ⟨hheap, hsent⟩ := Prod.mk.inj (Option.some.inj hrun)
  refine ⟨db', hprocess, hheap, hsent, hiff.mpr (Or.inr ⟨?_, ?_⟩)⟩
  · show ∀ id ∈ threeLate.heap, (threeLate.route id).pendingTimeout ≤ 1000000000
    decide
  · decide

/-- Of two requests that are late the first is made, and the other waits behind it. -/
theorem second_late_waits :
    ¬ (∀ (o : PrioQueue ℕ) (Heap : (ℕ → ℕ) → List ℕ → Prop) (bye : ℕ → Bool)
        (reach : PendingUid → Bool) (now : ℕ) (db : PendingDB), o.Lawful Heap →
        PrioQueue.Kept Heap db.key db.heap → now < 2 ^ 63 →
        ∃ db', process o bye reach now db (db.heap.length + 2) = some db' ∧
          ∀ id ∈ db'.heap, ¬ db'.late now id) := by
  intro h
  obtain ⟨db', hprocess, hdone⟩ := h PrioQueue.sorted _ (fun _ => false) (fun _ => true) 10
    (waiting 2) PrioQueue.lawful_sorted (kept_waiting 2) (by decide)
  obtain ⟨db'', hprocess', hiff⟩ := @process_late PrioQueue.sorted _ (fun _ => false) (fun _ => true)
    10 (waiting 2) PrioQueue.lawful_sorted (by decide) 2 rfl (kept_waiting 2)
    (fun id _ => late_waiting 2 10 id) 4 (by decide)
  obtain rfl : db'' = db' := Option.some_inj.mp (hprocess'.symm.trans hprocess)
  have hgone := hiff.mp hdone 0 (by decide)
  exact absurd hgone (by decide)

end PendingDB

end Raims
