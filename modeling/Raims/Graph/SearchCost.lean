import Raims.Graph.AdjDistance
import Raims.Lib.DepthFirst
import Mathlib.Algebra.BigOperators.Group.Finset.Basic
import Mathlib.Algebra.Order.BigOperators.Group.Finset
import Mathlib.Algebra.Ring.Nat

/-!
# The search for the least cost of a path (`calc_cost`, `calc_transport_cost`, `search_cost`)

A depth first search over the adjacency sets. `visit` has the least cost at which a user was
found so far, and a user that is found at a lower cost is pushed with it on `stack`, whether or
not it still waits there with a higher one. The stack has `max_uid` entries, one for each user,
so it is large enough when no user is pushed that still waits; three links to one peer, each
cheaper than the one before, are already too much for it.
-/

namespace Raims

def COST_MAXIMUM : UInt32 := 0xffffffff

/-- What is left to do in the loops over the sets of a user: to push a uid, to push it if the
cost is less than what it has, or to take the cost of a set that `dest_uid` is in. -/
inductive Task where
  | push (uid : ℕ) (dist : UInt32)
  | relax (uid : ℕ) (dist : UInt32)
  | found (dist : UInt32)
deriving DecidableEq

/-- The arrays and the locals of `search_cost`. `stack` has its top first, so that its length is
`tos`. -/
structure SearchState where
  stack : List (ℕ × UInt32)
  visit : ℕ → UInt32
  minCost : UInt32
  todo : List Task

/-- The least cost at which each user, and the destination, was found. -/
structure Labels where
  visit : ℕ → UInt32
  minCost : UInt32

/-- `visit[ uid ] = dist` -/
def Labels.lowered (l : Labels) (uid : ℕ) (dist : UInt32) : Labels :=
  { l with visit := Function.update l.visit uid dist }

/-- The state of a search with these labels. -/
def Labels.state (l : Labels) (stack : List (ℕ × UInt32)) (todo : List Task) : SearchState :=
  ⟨stack, l.visit, l.minCost, todo⟩

def SearchState.labels (s : SearchState) : Labels := ⟨s.visit, s.minCost⟩

/-- How the search goes on. -/
inductive Turn where
  | next (s : SearchState)
  | done (cost : UInt32)
  /-- `stack[ tos ]` with `tos` not below `max_uid` -/
  | overflow

/-- How a search ends. -/
inductive Outcome where
  | cost (c : UInt32)
  | overflow
deriving DecidableEq

namespace UidDB

variable (db : UidDB) (p : UInt16) (dest : ℕ)

/-- The loops of `calc_cost` over the sets of the source. -/
def firstTasks (src : ℕ) : List Task :=
  (db.entries src).map fun e => .relax e.2 (e.1.cost.get p)

/-- The tasks of one set of a user at distance `d`. -/
def setTasks (d : UInt32) (set : AdjacencySpace) : List Task :=
  if dest ∈ set.members then [.found (d + set.cost.get p)]
  else (BitSpace.toList set.members).map fun b => .relax b (d + set.cost.get p)

/-- The loops of `search_cost` over the sets of a user at distance `d`. -/
def linkTasks (d : UInt32) (uid : ℕ) : List Task :=
  (List.range (db.adjacencyCount uid)).flatMap fun i =>
    match db.adjacencySet uid i with
    | none => []
    | some set => setTasks p dest d set

/-- `visit[ uid ] = dist` and the push. -/
def pushStack (s : SearchState) (uid : ℕ) (dist : UInt32) (rest : List Task) : Turn :=
  if s.stack.length < db.nextUid then
    .next { s with
      stack := (uid, dist) :: s.stack
      visit := Function.update s.visit uid dist
      todo := rest }
  else .overflow

/-- One turn of the innermost loop, or of the loop over the stack when there is nothing left to
do for the last user. -/
def turn (s : SearchState) : Turn :=
  match s.todo with
  | .push uid dist :: rest => db.pushStack s uid dist rest
  | .relax uid dist :: rest =>
    if dist < s.visit uid then db.pushStack s uid dist rest else .next { s with todo := rest }
  | .found dist :: rest =>
    .next { s with
      visit := if dist < s.visit dest then Function.update s.visit dest dist else s.visit
      minCost := if dist < s.minCost then dist else s.minCost
      todo := rest }
  | [] =>
    match s.stack with
    | [] => .done s.minCost
    | (uid, d) :: rest =>
      if uid = dest ∧ d < s.minCost then
        .next { s with
          stack := rest
          visit := Function.update s.visit uid d
          minCost := d }
      else if s.minCost ≤ d + 1 then .next { s with stack := rest }
      else .next { s with stack := rest, todo := db.linkTasks p dest d uid }

/-- `search_cost`, none when the fuel is used up. -/
def searchCost : ℕ → SearchState → Option Outcome
  | 0, _ => none
  | fuel + 1, s =>
    match db.turn p dest s with
    | .next s => searchCost fuel s
    | .done c => some (.cost c)
    | .overflow => some .overflow

/-- `calc_cost` before its search. -/
def startCost (src : ℕ) : SearchState :=
  ⟨[], Function.update (fun _ => COST_MAXIMUM) src 0, COST_MAXIMUM, db.firstTasks p src⟩

/-- `calc_cost` -/
def calcCost (fuel src : ℕ) : Option Outcome :=
  if src = dest then some (.cost 0) else db.searchCost p dest fuel (db.startCost p src)

/-- `calc_transport_cost` before its search. -/
def startTransport (set : AdjacencySpace) : SearchState :=
  ⟨[], Function.update (fun _ => COST_MAXIMUM) 0 0, COST_MAXIMUM,
    (BitSpace.toList set.members).map fun b => .push b (set.cost.get p)⟩

/-- `calc_transport_cost` -/
def calcTransportCost (fuel tportId : ℕ) : Option Outcome :=
  match db.adjacencySet 0 tportId with
  | none => some (.cost 0)
  | some set =>
    if dest ∈ set.members then some (.cost (set.cost.get p))
    else db.searchCost p dest fuel (startTransport p set)

/-! ## The search ends -/

/-- A task that is not one of `search_cost`: it pushes whatever the cost, or pushes
`dest_uid`. -/
def loose : Task → Bool
  | .push _ _ => true
  | .relax uid _ => uid = dest ∨ db.nextUid ≤ uid
  | .found _ => false

/-- More tasks than any user gives. -/
def taskBound : ℕ :=
  ∑ uid ∈ Finset.range db.nextUid, (db.linkTasks p dest 0 uid).length + 1

/-- The costs of the users but for the destination. -/
def visitSum (s : SearchState) : ℕ :=
  ∑ uid ∈ (Finset.range db.nextUid).erase dest, (s.visit uid).toNat

def looseCount (s : SearchState) : ℕ := s.todo.countP (db.loose dest)

/-- What is left to do, where a user on the stack counts for all its tasks, and a cost that can
still be lowered for one more user on the stack. -/
def potential (s : SearchState) : ℕ :=
  s.todo.length + db.taskBound p dest * s.stack.length +
    (db.taskBound p dest + 1) * db.visitSum dest s

section Ends

variable {db : UidDB} {p : UInt16} {dest : ℕ}

theorem length_setTasks (d d' : UInt32) (set : AdjacencySpace) :
    (setTasks p dest d set).length = (setTasks p dest d' set).length := by
  unfold setTasks
  split
  · rfl
  · simp

theorem length_linkTasks (d d' : UInt32) (uid : ℕ) :
    (db.linkTasks p dest d uid).length = (db.linkTasks p dest d' uid).length := by
  unfold linkTasks
  rw [List.length_flatMap, List.length_flatMap]
  congr 1
  apply List.map_congr_left
  intro i _
  cases db.adjacencySet uid i with
  | none => rfl
  | some set => exact length_setTasks d d' set

/-- A uid that was not given out has no sets. -/
theorem adjacencyCount_of_le {uid : ℕ} (h : db.nextUid ≤ uid) : db.adjacencyCount uid = 0 := by
  have hpeer : db.peer uid = none := by
    by_contra hne
    exact absurd (db.peer_lt uid (Option.isSome_iff_ne_none.mpr hne)) (Nat.not_lt.mpr h)
  have hzero : uid ≠ 0 := (Nat.lt_of_lt_of_le db.nextUid_pos h).ne'
  simp [adjacencyCount, LinkDB.adjacencyOf, LinkDB.entry, hzero, hpeer, AdjacencyTab.empty]

theorem linkTasks_of_le (d : UInt32) {uid : ℕ} (h : db.nextUid ≤ uid) :
    db.linkTasks p dest d uid = [] := by
  simp [linkTasks, adjacencyCount_of_le h]

theorem length_linkTasks_lt (d : UInt32) (uid : ℕ) :
    (db.linkTasks p dest d uid).length < db.taskBound p dest := by
  rw [length_linkTasks d 0, taskBound, Nat.lt_succ_iff]
  rcases Nat.lt_or_ge uid db.nextUid with h | h
  · exact Finset.single_le_sum (f := fun uid => (db.linkTasks p dest 0 uid).length)
      (fun _ _ => Nat.zero_le _) (Finset.mem_range.mpr h)
  · rw [linkTasks_of_le 0 h]
    exact Nat.zero_le _

/-- A task of `search_cost` is for a user other than the destination. -/
theorem not_loose_of_mem_linkTasks {d : UInt32} {uid : ℕ} {task : Task}
    (h : task ∈ db.linkTasks p dest d uid) : db.loose dest task = false := by
  obtain ⟨i, -, hmem⟩ := List.mem_flatMap.mp h
  cases hset : db.adjacencySet uid i with
  | none => simp [hset] at hmem
  | some set =>
    simp only [hset, setTasks] at hmem
    split at hmem
    · rw [List.mem_singleton.mp hmem]
      rfl
    · next hdest =>
        obtain ⟨b, hb, rfl⟩ := List.mem_map.mp hmem
        rw [BitSpace.mem_toList] at hb
        have hne : b ≠ dest := fun heq => hdest (heq ▸ hb)
        have hlt := db.members_lt uid i set hset b hb
        simp [loose, hne, hlt]

theorem push_notMem_linkTasks {d dist : UInt32} {uid b : ℕ} :
    Task.push b dist ∉ db.linkTasks p dest d uid := fun h => by
  cases not_loose_of_mem_linkTasks h

theorem looseCount_linkTasks (d : UInt32) (uid : ℕ) :
    (db.linkTasks p dest d uid).countP (db.loose dest) = 0 := by
  rw [List.countP_eq_zero]
  intro task htask
  simp [not_loose_of_mem_linkTasks htask]

theorem visitSum_update_dest (s : SearchState) (d : UInt32) :
    db.visitSum dest { s with visit := Function.update s.visit dest d } = db.visitSum dest s := by
  apply Finset.sum_congr rfl
  intro uid huid
  simp only [Function.update_of_ne (Finset.ne_of_mem_erase huid)]

theorem visitSum_update_lt (s : SearchState) {uid : ℕ} {dist : UInt32} (hne : uid ≠ dest)
    (hlt : uid < db.nextUid) (hdist : dist < s.visit uid) :
    db.visitSum dest { s with visit := Function.update s.visit uid dist } <
      db.visitSum dest s := by
  have hmem : uid ∈ (Finset.range db.nextUid).erase dest :=
    Finset.mem_erase.mpr ⟨hne, Finset.mem_range.mpr hlt⟩
  apply Finset.sum_lt_sum
  · intro v _
    rcases eq_or_ne v uid with rfl | hv
    · simp only [Function.update_self]
      exact (UInt32.lt_iff_toNat_lt.mp hdist).le
    · simp only [Function.update_of_ne hv, le_refl]
  · refine ⟨uid, hmem, ?_⟩
    simp only [Function.update_self]
    exact UInt32.lt_iff_toNat_lt.mp hdist

theorem pushStack_next {s s' : SearchState} {uid : ℕ} {dist : UInt32} {rest : List Task}
    (h : db.pushStack s uid dist rest = .next s') :
    s.stack.length < db.nextUid ∧ s' = { s with
      stack := (uid, dist) :: s.stack
      visit := Function.update s.visit uid dist
      todo := rest } := by
  unfold pushStack at h
  split at h
  · next hlt =>
      cases h
      exact ⟨hlt, rfl⟩
  · cases h

/-- All that a turn can do. -/
inductive Turned (db : UidDB) (p : UInt16) (dest : ℕ) (s : SearchState) : SearchState → Prop
  | push {task : Task} {uid : ℕ} {dist : UInt32} {rest : List Task} (htodo : s.todo = task :: rest)
      (hroom : s.stack.length < db.nextUid)
      (htask : task = .push uid dist ∨ task = .relax uid dist ∧ dist < s.visit uid) :
      Turned db p dest s { s with
        stack := (uid, dist) :: s.stack
        visit := Function.update s.visit uid dist
        todo := rest }
  | skip {uid : ℕ} {dist : UInt32} {rest : List Task} (htodo : s.todo = .relax uid dist :: rest)
      (hvisit : ¬ dist < s.visit uid) : Turned db p dest s { s with todo := rest }
  | found {dist : UInt32} {rest : List Task} (htodo : s.todo = .found dist :: rest) :
      Turned db p dest s { s with
        visit := if dist < s.visit dest then Function.update s.visit dest dist else s.visit
        minCost := if dist < s.minCost then dist else s.minCost
        todo := rest }
  | arrive {d : UInt32} {rest : List (ℕ × UInt32)} (htodo : s.todo = [])
      (hstack : s.stack = (dest, d) :: rest) (hmin : d < s.minCost) :
      Turned db p dest s { s with
        stack := rest
        visit := Function.update s.visit dest d
        minCost := d }
  | prune {uid : ℕ} {d : UInt32} {rest : List (ℕ × UInt32)} (htodo : s.todo = [])
      (hstack : s.stack = (uid, d) :: rest) (hdest : ¬ (uid = dest ∧ d < s.minCost))
      (hmin : s.minCost ≤ d + 1) : Turned db p dest s { s with stack := rest }
  | expand {uid : ℕ} {d : UInt32} {rest : List (ℕ × UInt32)} (htodo : s.todo = [])
      (hstack : s.stack = (uid, d) :: rest) (hdest : ¬ (uid = dest ∧ d < s.minCost))
      (hmin : ¬ s.minCost ≤ d + 1) :
      Turned db p dest s { s with stack := rest, todo := db.linkTasks p dest d uid }

theorem turned {s s' : SearchState} (h : db.turn p dest s = .next s') :
    Turned db p dest s s' := by
  obtain ⟨stack, visit, minCost, todo⟩ := s
  unfold turn at h
  cases todo with
  | cons task rest =>
    cases task with
    | push uid dist =>
      obtain ⟨hroom, rfl⟩ := pushStack_next h
      exact .push rfl hroom (Or.inl rfl)
    | relax uid dist =>
      simp only at h
      split at h
      · next hdist =>
          obtain ⟨hroom, rfl⟩ := pushStack_next h
          exact .push rfl hroom (Or.inr ⟨rfl, hdist⟩)
      · next hdist =>
          cases h
          exact .skip rfl hdist
    | found dist =>
      cases h
      exact .found rfl
  | nil =>
    cases stack with
    | nil => cases h
    | cons top rest =>
      obtain ⟨uid, d⟩ := top
      simp only at h
      split at h
      · next hdest =>
          cases h
          obtain ⟨rfl, hmin⟩ := hdest
          exact .arrive rfl rfl hmin
      · next hdest =>
          split at h
          · next hmin =>
              cases h
              exact .prune rfl rfl hdest hmin
          · next hmin =>
              cases h
              exact .expand rfl rfl hdest hmin

/-- The search gets on with every turn. -/
theorem Turned.lex {s s' : SearchState} (h : Turned db p dest s s') :
    Prod.Lex (· < ·) (· < ·) (db.looseCount dest s', db.potential p dest s')
      (db.looseCount dest s, db.potential p dest s) := by
  rw [Prod.lex_iff]
  have hpos : 0 < db.taskBound p dest := Nat.succ_pos _
  cases h with
  | @push task uid dist rest htodo hroom htask =>
    by_cases hloose : db.loose dest task = true
    · refine Or.inl ?_
      simp [looseCount, htodo, hloose]
    · refine Or.inr ⟨?_, ?_⟩
      · simp [looseCount, htodo, hloose]
      · rcases htask with rfl | ⟨rfl, hdist⟩
        · exact absurd rfl hloose
        · simp only [loose, decide_eq_true_eq, not_or, Nat.not_le] at hloose
          have hsum := visitSum_update_lt s hloose.1 hloose.2 hdist
          have hmul := Nat.mul_le_mul_left (db.taskBound p dest + 1) hsum
          simp only [potential, htodo, List.length_cons, visitSum] at hmul ⊢
          rw [Nat.mul_succ] at hmul ⊢
          omega
  | @skip uid dist rest htodo hvisit =>
    by_cases hloose : db.loose dest (.relax uid dist) = true
    · refine Or.inl ?_
      simp [looseCount, htodo, hloose]
    · refine Or.inr ⟨?_, ?_⟩
      · simp [looseCount, htodo, hloose]
      · simp [potential, htodo, visitSum]
  | @found dist rest htodo =>
    refine Or.inr ⟨?_, ?_⟩
    · simp [looseCount, htodo, loose]
    · have hsum : db.visitSum dest { s with
          visit := if dist < s.visit dest then Function.update s.visit dest dist else s.visit } =
          db.visitSum dest s := by
        split
        · exact visitSum_update_dest s dist
        · rfl
      simp only [visitSum] at hsum
      simp [potential, htodo, visitSum, hsum]
  | @arrive d rest htodo hstack hmin =>
    refine Or.inr ⟨rfl, ?_⟩
    have hsum : db.visitSum dest { s with visit := Function.update s.visit dest d } =
        db.visitSum dest s := visitSum_update_dest s d
    simp only [visitSum] at hsum
    simp only [potential, htodo, hstack, visitSum, List.length_cons, hsum, Nat.mul_succ]
    omega
  | @prune uid d rest htodo hstack hdest hmin =>
    refine Or.inr ⟨rfl, ?_⟩
    simp only [potential, htodo, hstack, visitSum, List.length_cons, Nat.mul_succ]
    omega
  | @expand uid d rest htodo hstack hdest hmin =>
    refine Or.inr ⟨?_, ?_⟩
    · simp [looseCount, htodo, looseCount_linkTasks]
    · have hlt : (db.linkTasks p dest d uid).length < db.taskBound p dest :=
        length_linkTasks_lt d uid
      simp only [potential, htodo, hstack, visitSum, List.length_cons, List.length_nil,
        Nat.mul_succ]
      omega

/-- **Every search ends.** -/
theorem searchCost_ends (s : SearchState) : ∃ fuel o, db.searchCost p dest fuel s = some o := by
  cases hturn : db.turn p dest s with
  | done c => exact ⟨1, .cost c, by simp [searchCost, hturn]⟩
  | overflow => exact ⟨1, .overflow, by simp [searchCost, hturn]⟩
  | next s' =>
    have hlex := (turned hturn).lex
    obtain ⟨fuel, o, ho⟩ := searchCost_ends s'
    exact ⟨fuel + 1, o, by simp [searchCost, hturn, ho]⟩
termination_by (db.looseCount dest s, db.potential p dest s)
decreasing_by exact hlex

/-! ## The room that a search needs -/

/-- The states that a search goes through. -/
def Reaches (db : UidDB) (p : UInt16) (dest : ℕ) : SearchState → SearchState → Prop :=
  Relation.ReflTransGen fun s s' => db.turn p dest s = .next s'

/-- The searches of `calc_cost` and of `calc_transport_cost`. -/
inductive Started (db : UidDB) (p : UInt16) (dest : ℕ) : SearchState → Prop
  | cost {src : ℕ} (hsrc : src ≠ dest) : Started db p dest (db.startCost p src)
  | transport {tportId : ℕ} {set : AdjacencySpace} (hset : db.adjacencySet 0 tportId = some set)
      (hdest : dest ∉ set.members) : Started db p dest (startTransport p set)

end Ends

/-- The links of a user lower the costs of others, which are given with the last one first. -/
def lower : List Task → Labels → Labels × List (ℕ × UInt32)
  | [], l => (l, [])
  | .push uid dist :: rest, l =>
    let r := lower rest (l.lowered uid dist)
    (r.1, r.2 ++ [(uid, dist)])
  | .relax uid dist :: rest, l =>
    if dist < l.visit uid then
      let r := lower rest (l.lowered uid dist)
      (r.1, r.2 ++ [(uid, dist)])
    else lower rest l
  | .found dist :: rest, l =>
    lower rest
      { visit := if dist < l.visit dest then Function.update l.visit dest dist else l.visit
        minCost := if dist < l.minCost then dist else l.minCost }

/-- The users that are found at lower costs over the links of a user, none from the destination
and none when one more link is no gain. -/
def branches (l : Labels) (w : ℕ × UInt32) : Labels × List (ℕ × UInt32) :=
  if w.1 = dest ∧ w.2 < l.minCost then
    ({ visit := Function.update l.visit w.1 w.2, minCost := w.2 }, [])
  else if l.minCost ≤ w.2 + 1 then (l, [])
  else lower dest (db.linkTasks p dest w.2 w.1) l

/-- The tree of the users that are found at lower and lower costs, from the first tasks on, needs
room for `n`: along each of its branches, a place for every user that waits. -/
def TreeRoom (tasks : List Task) (l : Labels) (n : ℕ) : Prop :=
  ∃ l', DepthFirst.Explores (db.branches p dest) (lower dest tasks l).1 (lower dest tasks l).2 l' n

section Room

variable {db : UidDB} {p : UInt16} {dest fuel : ℕ} {stack : List (ℕ × UInt32)} {l l' : Labels}

theorem searchCost_mono {fuel fuel' : ℕ} {s : SearchState} {o : Outcome} (hle : fuel ≤ fuel')
    (h : db.searchCost p dest fuel s = some o) : db.searchCost p dest fuel' s = some o := by
  induction fuel generalizing fuel' s with
  | zero => cases h
  | succ fuel ih =>
    obtain ⟨fuel', rfl⟩ := Nat.exists_eq_add_of_le' (Nat.le_trans (Nat.succ_pos fuel) hle)
    rw [searchCost] at h ⊢
    cases hturn : db.turn p dest s with
    | next s' =>
      rw [hturn] at h
      exact ih (Nat.le_of_succ_le_succ hle) h
    | done c => simpa [hturn] using h
    | overflow => simpa [hturn] using h

theorem searchCost_next {s s' : SearchState} (h : db.turn p dest s = .next s') (fuel : ℕ) :
    db.searchCost p dest (fuel + 1) s = db.searchCost p dest fuel s' := by
  rw [searchCost, h]

/-- A push that has room. -/
theorem pushStack_state (uid : ℕ) (dist : UInt32) (rest todo : List Task)
    (hroom : stack.length < db.nextUid) :
    db.pushStack (l.state stack todo) uid dist rest =
      .next ((l.lowered uid dist).state ((uid, dist) :: stack) rest) :=
  if_pos hroom

theorem turn_relax {uid : ℕ} {dist : UInt32} (rest : List Task) (h : dist < l.visit uid) :
    db.turn p dest (l.state stack (.relax uid dist :: rest)) =
      db.pushStack (l.state stack (.relax uid dist :: rest)) uid dist rest :=
  if_pos h

theorem turn_skip {uid : ℕ} {dist : UInt32} (rest : List Task) (h : ¬ dist < l.visit uid) :
    db.turn p dest (l.state stack (.relax uid dist :: rest)) = .next (l.state stack rest) :=
  if_neg h

/-- The inner loops push the users that they lower, when there is room for all of these. -/
theorem searchCost_todo (tasks : List Task)
    (hroom : (lower dest tasks l).2.length + stack.length ≤ db.nextUid) :
    ∃ k, ∀ fuel, db.searchCost p dest (k + fuel) (l.state stack tasks) =
      db.searchCost p dest fuel
        ((lower dest tasks l).1.state ((lower dest tasks l).2 ++ stack) []) := by
  induction tasks generalizing l stack with
  | nil => exact ⟨0, fun fuel => by rw [Nat.zero_add]; rfl⟩
  | cons task rest ih =>
    have hpush : ∀ uid dist, db.turn p dest (l.state stack (task :: rest)) =
        db.pushStack (l.state stack (task :: rest)) uid dist rest →
        lower dest (task :: rest) l = ((lower dest rest (l.lowered uid dist)).1,
          (lower dest rest (l.lowered uid dist)).2 ++ [(uid, dist)]) →
        ∃ k, ∀ fuel, db.searchCost p dest (k + fuel) (l.state stack (task :: rest)) =
          db.searchCost p dest fuel ((lower dest (task :: rest) l).1.state
            ((lower dest (task :: rest) l).2 ++ stack) []) := by
      intro uid dist hturn hlower
      rw [hlower, List.length_append, List.length_singleton] at hroom
      have hrest : (lower dest rest (l.lowered uid dist)).2.length +
          ((uid, dist) :: stack).length ≤ db.nextUid := by
        rw [List.length_cons]
        omega
      obtain ⟨k, hk⟩ := ih hrest
      rw [pushStack_state uid dist rest _ (by omega)] at hturn
      refine ⟨k + 1, fun fuel => ?_⟩
      rw [Nat.add_right_comm, searchCost_next hturn, hk, hlower, List.append_assoc]
      rfl
    cases task with
    | push uid dist => exact hpush uid dist rfl rfl
    | relax uid dist =>
      by_cases hlt : dist < l.visit uid
      · exact hpush uid dist (turn_relax rest hlt) (by rw [lower, if_pos hlt])
      · rw [lower, if_neg hlt] at hroom ⊢
        obtain ⟨k, hk⟩ := ih hroom
        refine ⟨k + 1, fun fuel => ?_⟩
        rw [Nat.add_right_comm, searchCost_next (turn_skip rest hlt), hk]
    | found dist =>
      obtain ⟨k, hk⟩ := ih hroom
      exact ⟨k + 1, fun fuel => by rw [Nat.add_right_comm]; exact hk fuel⟩

/-- A search that ends with a cost had room for all the users that the inner loops lower. -/
theorem room_of_searchCost {c : UInt32} {tasks : List Task} (hstack : stack.length ≤ db.nextUid)
    (h : db.searchCost p dest fuel (l.state stack tasks) = some (.cost c)) :
    (lower dest tasks l).2.length + stack.length ≤ db.nextUid := by
  induction tasks generalizing l stack fuel with
  | nil => simpa [lower] using hstack
  | cons task rest ih =>
    cases fuel with
    | zero => cases h
    | succ fuel =>
      have hpush : ∀ uid dist, db.turn p dest (l.state stack (task :: rest)) =
          db.pushStack (l.state stack (task :: rest)) uid dist rest →
          (lower dest rest (l.lowered uid dist)).2.length + 1 + stack.length ≤
            db.nextUid := by
        intro uid dist hturn
        by_cases hlt : stack.length < db.nextUid
        · rw [pushStack_state uid dist rest _ hlt] at hturn
          rw [searchCost_next hturn] at h
          have hrest := ih (by rw [List.length_cons]; omega) h
          rw [List.length_cons] at hrest
          omega
        · have hover : db.pushStack (l.state stack (task :: rest)) uid dist rest =
              .overflow := if_neg hlt
          rw [searchCost, hturn, hover] at h
          cases h
      cases task with
      | push uid dist => simpa [lower] using hpush uid dist rfl
      | relax uid dist =>
        by_cases hlt : dist < l.visit uid
        · simpa [lower, if_pos hlt] using hpush uid dist (turn_relax rest hlt)
        · rw [searchCost_next (turn_skip rest hlt)] at h
          simpa only [lower, if_neg hlt] using ih hstack h
      | found dist => exact ih hstack (by rwa [searchCost_next rfl] at h)

/-- The loop over the stack takes a user from it, and goes into the inner loops. -/
theorem turn_pop (w : ℕ × UInt32) :
    ∃ l₁ tasks, db.turn p dest (l.state (w :: stack) []) = .next (l₁.state stack tasks) ∧
      lower dest tasks l₁ = db.branches p dest l w := by
  by_cases hdest : w.1 = dest ∧ w.2 < l.minCost
  · refine ⟨⟨Function.update l.visit w.1 w.2, w.2⟩, [], if_pos hdest, ?_⟩
    rw [branches, if_pos hdest]
    rfl
  · by_cases hmin : l.minCost ≤ w.2 + 1
    · refine ⟨l, [], (if_neg hdest).trans (if_pos hmin), ?_⟩
      rw [branches, if_neg hdest, if_pos hmin]
      rfl
    · refine ⟨l, _, (if_neg hdest).trans (if_neg hmin), ?_⟩
      rw [branches, if_neg hdest, if_neg hmin]

/-- The search goes as the walk over the branches with a stack of `max_uid` entries. -/
theorem searchCost_of_walk
    (h : DepthFirst.walk (db.branches p dest) db.nextUid fuel l stack = some l') :
    ∃ fuel', db.searchCost p dest fuel' (l.state stack []) = some (.cost l'.minCost) := by
  induction fuel generalizing l stack with
  | zero => cases h
  | succ fuel ih =>
    cases stack with
    | nil =>
      cases h
      exact ⟨1, rfl⟩
    | cons w rest =>
      rw [DepthFirst.walk] at h
      split at h
      · next hroom =>
          obtain ⟨fuel', hcost⟩ := ih h
          obtain ⟨l₁, tasks, hturn, hlower⟩ := @turn_pop db p dest rest l w
          rw [← hlower] at hroom hcost
          obtain ⟨k, hk⟩ := searchCost_todo tasks (by rwa [List.length_append] at hroom)
          exact ⟨k + fuel' + 1, by rw [searchCost_next hturn, hk, hcost]⟩
      · cases h

theorem walk_of_searchCost {c : UInt32} (hstack : stack.length ≤ db.nextUid)
    (h : db.searchCost p dest fuel (l.state stack []) = some (.cost c)) :
    ∃ l', DepthFirst.walk (db.branches p dest) db.nextUid fuel l stack = some l' ∧
      l'.minCost = c := by
  induction fuel generalizing l stack with
  | zero => cases h
  | succ fuel ih =>
    cases stack with
    | nil =>
      cases h
      exact ⟨l, rfl, rfl⟩
    | cons w rest =>
      obtain ⟨l₁, tasks, hturn, hlower⟩ := @turn_pop db p dest rest l w
      rw [searchCost_next hturn] at h
      have hroom := room_of_searchCost (Nat.le_of_succ_le hstack) h
      obtain ⟨k, hk⟩ := @searchCost_todo db p dest _ l₁ tasks hroom
      have hcost := searchCost_mono (Nat.le_add_left fuel k) h
      rw [hk] at hcost
      rw [← List.length_append] at hroom
      rw [hlower] at hroom hcost
      obtain ⟨l', hwalk, hmin⟩ := ih hroom hcost
      exact ⟨l', by rw [DepthFirst.walk, if_pos hroom, hwalk], hmin⟩

/-- A search ends with a cost when the tree of the users that it finds has room in the stack,
and only then. -/
theorem searchCost_cost_iff (tasks : List Task) :
    (∃ fuel c, db.searchCost p dest fuel (l.state [] tasks) = some (.cost c)) ↔
      ∃ n ≤ db.nextUid, db.TreeRoom p dest tasks l n := by
  constructor
  · rintro ⟨fuel, c, h⟩
    have hroom := room_of_searchCost (Nat.zero_le _) h
    obtain ⟨k, hk⟩ := @searchCost_todo db p dest _ l tasks hroom
    have hcost := searchCost_mono (Nat.le_add_left fuel k) h
    rw [hk, List.append_nil] at hcost
    obtain ⟨l', hwalk, -⟩ := walk_of_searchCost hroom hcost
    obtain ⟨n, hn, hexp⟩ := (DepthFirst.exists_walk_iff hroom).mp ⟨fuel, hwalk⟩
    exact ⟨n, hn, l', hexp⟩
  · rintro ⟨n, hn, l', hexp⟩
    have hroom : (lower dest tasks l).2.length ≤ db.nextUid := Nat.le_trans hexp.length_le hn
    obtain ⟨fuel, hwalk⟩ := (DepthFirst.exists_walk_iff hroom).mpr ⟨n, hn, hexp⟩
    obtain ⟨fuel', hcost⟩ := searchCost_of_walk hwalk
    obtain ⟨k, hk⟩ := @searchCost_todo db p dest [] l tasks hroom
    refine ⟨k + fuel', l'.minCost, ?_⟩
    rw [hk, List.append_nil, hcost]

/-- No state on the way to the end of a search is one that overflows. -/
theorem turn_ne_overflow {s s' : SearchState} {c : UInt32}
    (h : db.searchCost p dest fuel s = some (.cost c)) (hs : Reaches db p dest s s') :
    db.turn p dest s' ≠ .overflow := by
  induction hs using Relation.ReflTransGen.head_induction_on generalizing fuel with
  | refl =>
    intro hturn
    cases fuel with
    | zero => cases h
    | succ fuel =>
      rw [searchCost, hturn] at h
      cases h
  | head hturn _ ih =>
    cases fuel with
    | zero => cases h
    | succ fuel =>
      rw [searchCost_next hturn] at h
      exact ih h

theorem Started.length_le {s₀ s : SearchState} (h : Started db p dest s₀)
    (hs : Reaches db p dest s₀ s) : s.stack.length ≤ db.nextUid := by
  induction hs with
  | refl => cases h <;> exact Nat.zero_le _
  | tail _ hturn ih =>
    cases turned hturn with
    | push _ hroom _ => exact hroom
    | skip _ _ => exact ih
    | found _ => exact ih
    | arrive _ hstack _ =>
      rw [hstack] at ih
      exact Nat.le_of_succ_le ih
    | prune _ hstack _ _ =>
      rw [hstack] at ih
      exact Nat.le_of_succ_le ih
    | expand _ hstack _ _ =>
      rw [hstack] at ih
      exact Nat.le_of_succ_le ih

/-! ## The tree is finite -/

/-- What is left to do of a tree: its users that wait, and the costs that can still be lowered. -/
def treePotential (db : UidDB) (p : UInt16) (dest : ℕ) (l : Labels)
    (stack : List (ℕ × UInt32)) : ℕ :=
  db.potential p dest (l.state stack [])

theorem treePotential_lower {tasks : List Task}
    (htasks : ∀ task ∈ tasks, db.loose dest task = false) (l : Labels) (stack : List (ℕ × UInt32)) :
    db.treePotential p dest (lower dest tasks l).1 ((lower dest tasks l).2 ++ stack) ≤
      db.treePotential p dest l stack := by
  induction tasks generalizing l stack with
  | nil => exact le_refl _
  | cons task rest ih =>
    have hrest : ∀ task ∈ rest, db.loose dest task = false :=
      fun t ht => htasks t (List.mem_cons_of_mem _ ht)
    have hloose := htasks task List.mem_cons_self
    cases task with
    | push uid dist => cases hloose
    | relax uid dist =>
      by_cases hlt : dist < l.visit uid
      · rw [lower, if_pos hlt, List.append_assoc]
        refine Nat.le_trans (ih hrest (l.lowered uid dist) ((uid, dist) :: stack)) ?_
        simp only [loose, decide_eq_false_iff_not, not_or, Nat.not_le] at hloose
        have hsum := visitSum_update_lt (l.state stack []) hloose.1 hloose.2 hlt
        have hmul := Nat.mul_le_mul_left (db.taskBound p dest + 1) hsum
        simp only [treePotential, potential, Labels.state, Labels.lowered, List.length_cons,
          visitSum] at hmul ⊢
        rw [Nat.mul_succ] at hmul ⊢
        omega
      · rw [lower, if_neg hlt]
        exact ih hrest l stack
    | found dist =>
      refine Nat.le_trans (ih hrest _ stack) (Nat.le_of_eq ?_)
      have hsum : db.visitSum dest { l.state stack [] with
          visit :=
            if dist < l.visit dest then Function.update l.visit dest dist else l.visit } =
          db.visitSum dest (l.state stack []) := by
        split
        · exact visitSum_update_dest (l.state stack []) dist
        · rfl
      simp only [visitSum] at hsum
      simp [treePotential, potential, visitSum, Labels.state, hsum]

theorem treePotential_branches (l : Labels) (w : ℕ × UInt32) (rest : List (ℕ × UInt32)) :
    db.treePotential p dest (db.branches p dest l w).1 ((db.branches p dest l w).2 ++ rest) <
      db.treePotential p dest l (w :: rest) := by
  have hpos : 0 < db.taskBound p dest := Nat.succ_pos _
  have hpop : db.treePotential p dest l rest < db.treePotential p dest l (w :: rest) := by
    simp only [treePotential, potential, Labels.state, List.length_cons, visitSum, Nat.mul_succ]
    omega
  unfold branches
  split
  · next hdest =>
      have hsum := @visitSum_update_dest db dest (l.state rest []) w.2
      refine Nat.lt_of_le_of_lt (Nat.le_of_eq ?_) hpop
      simp only [visitSum, Labels.state] at hsum
      simp [treePotential, potential, visitSum, Labels.state, hdest.1, hsum]
  · split
    · exact hpop
    · refine Nat.lt_of_le_of_lt (treePotential_lower ?_ l rest) hpop
      exact fun task htask => not_loose_of_mem_linkTasks htask

/-- Every tree needs some room, and no other. -/
theorem exists_treeRoom (db : UidDB) (p : UInt16) (dest : ℕ) (tasks : List Task) (l : Labels) :
    ∃ n, ∀ m, db.TreeRoom p dest tasks l m ↔ m = n := by
  obtain ⟨l', n, hexp, -⟩ := DepthFirst.exists_explores (db.treePotential p dest)
    treePotential_branches (lower dest tasks l).1 (lower dest tasks l).2 []
  refine ⟨n, fun m => ⟨?_, ?_⟩⟩
  · rintro ⟨l'', hexp'⟩
    exact (hexp'.unique hexp).2
  · rintro rfl
    exact ⟨l', hexp⟩

/-- A tree has room when the walk over it does not run out of it. -/
theorem treeRoom_of_walk (fuel : ℕ) {tasks : List Task} {room : ℕ}
    (hroom : (lower dest tasks l).2.length ≤ room)
    (h : (DepthFirst.walk (db.branches p dest) room fuel (lower dest tasks l).1
      (lower dest tasks l).2).isSome) : ∃ n ≤ room, db.TreeRoom p dest tasks l n := by
  obtain ⟨l', hwalk⟩ := Option.isSome_iff_exists.mp h
  obtain ⟨n, hn, hexp⟩ := (DepthFirst.exists_walk_iff hroom).mp ⟨fuel, hwalk⟩
  exact ⟨n, hn, l', hexp⟩

end Room

/-- This node with its links to one peer, by their costs. -/
def parallelLinks (costs : List UInt32) : UidDB where
  me := ⟨"a", 0, costs.length, fun t => (costs[t]?).map fun cost =>
    { AdjacencySpace.new with members := {1}, cost := AdjCost.const cost }⟩
  peer uid := if uid = 1 then some ⟨"b", 1, .empty⟩ else none
  nextUid := 2
  peer_lt := by
    intro uid h
    by_contra hge
    rw [if_neg (by omega)] at h
    cases h
  nextUid_pos := by decide
  members_lt := by
    intro uid t set hset b hb
    simp only [LinkDB.adjacencyOf, LinkDB.entry] at hset
    split at hset
    · simp only [Option.map_some, Option.getD_some] at hset
      obtain ⟨cost, -, rfl⟩ := Option.map_eq_some_iff.mp hset
      obtain rfl : b = 1 := by simpa using hb
      decide
    · split at hset
      · simp [AdjacencyTab.empty] at hset
      · simp [AdjacencyTab.empty] at hset

end UidDB

end Raims
