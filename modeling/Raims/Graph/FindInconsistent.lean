import Raims.Graph.AdjDistance
import Mathlib.Algebra.Order.BigOperators.Group.Finset
import Mathlib.Algebra.Ring.Nat

/-!
# Looking for links that only one side knows (`find_inconsistent2`)

The search goes over the users that this node reaches, from one call to the next. A call goes
on until a user is found with links that the other side does not have, and returns one of them;
the calls after it return the rest. When no user is left to search, the users that were not
reached are returned one by one. The uids that wait are kept in `inc_list`, which they leave at
the tail and enter at the head, and which is moved to its end when the head is at 0.
-/

namespace Raims

/-- `UIntBitSet::set_first`: finds a bit below the maximum that is not set, to set it. -/
structure BitSetKv where
  setFirst : Finset ℕ → ℕ → Option ℕ
  fresh : ∀ {set max b}, setFirst set max = some b → b < max ∧ b ∉ set
  full : ∀ {set max}, setFirst set max = none → ∀ b < max, b ∈ set

/-- The lowest bit that is not set. -/
def BitSetKv.lowest : BitSetKv where
  setFirst set max := (List.range max).find? (· ∉ set)
  fresh := by
    intro set max b h
    refine ⟨List.mem_range.mp (List.mem_of_find?_eq_some h), ?_⟩
    simpa using List.find?_some h
  full := by
    intro set max h b hb
    simpa using List.find?_eq_none.mp h b (List.mem_range.mpr hb)

/-- The fields of `AdjDistance` that the search keeps between calls. `missing` has its top
first. -/
structure IncState where
  incList : ℕ → ℕ
  incHd : ℕ
  incTl : ℕ
  incVisit : Finset ℕ
  missing : List (ℕ × ℕ)
  incRunning : Bool

/-- What a call returns. A uid stands for its bridge in `from` and `to`. -/
inductive Found where
  | consistent
  | linkMissing (source target : ℕ)
  | uidOrphaned (uid : ℕ)
deriving DecidableEq

namespace UidDB

variable (db : UidDB)

/-- `set2 != NULL && set2->is_member( source_uid ) && set.cost.equals( set2->cost )` -/
def accepts (source target : ℕ) (set : AdjacencySpace) (i : ℕ) : Bool :=
  match db.adjacencySet target i with
  | none => false
  | some set2 => source ∈ set2.members ∧ set.cost = set2.cost

/-- `match_target_set` -/
def matchTargetSet (source target : ℕ) (set : AdjacencySpace) : Bool :=
  if target = set.remUid then
    set.remTportId < db.adjacencyCount target ∧ db.accepts source target set set.remTportId
  else (List.range (db.adjacencyCount target)).any (db.accepts source target set)

/-! ## The search

A read or write outside of the `max_uid` entries of `inc_list` is none. -/

/-- `clear_cache`, as far as the search is concerned. -/
def clearCache (s : IncState) : IncState :=
  { s with incList := fun _ => 0, incHd := 0, incTl := 0, missing := [], incRunning := false }

/-- The uids are moved to the end of `inc_list`. -/
def clearSpace (s : IncState) : IncState :=
  let hd := db.nextUid - s.incTl
  { s with
    incHd := hd
    incTl := db.nextUid
    incList := fun i => if hd ≤ i ∧ i < db.nextUid then s.incList (i - hd) else s.incList i }

/-- `push_inc_list` -/
def pushIncList (s : IncState) (uid : ℕ) : Option IncState :=
  if s.incHd = 0 ∧ db.nextUid < s.incTl then none
  else
    let s := if s.incHd = 0 then db.clearSpace s else s
    if 0 < s.incHd ∧ s.incHd - 1 < db.nextUid then
      some { s with
        incHd := s.incHd - 1
        incList := Function.update s.incList (s.incHd - 1) uid }
    else none

/-- `if ( ! this->inc_visit.test_set( target_uid ) ) this->push_inc_list( target_uid )` -/
def visitTarget (s : IncState) (target : ℕ) : Option IncState :=
  if target ∈ s.incVisit then some s
  else db.pushIncList { s with incVisit := insert target s.incVisit } target

/-- One member of a set of `source`. -/
def scanEntry (source : ℕ) (s : IncState) (e : AdjacencySpace × ℕ) : Option IncState :=
  (db.visitTarget s e.2).map fun s =>
    if db.matchTargetSet source e.2 e.1 then s
    else { s with missing := (source, e.2) :: s.missing }

/-- One turn of the `while` loop. -/
def scanSource (s : IncState) : Option IncState :=
  if 0 < s.incTl ∧ s.incTl - 1 < db.nextUid then
    let source := s.incList (s.incTl - 1)
    (db.entries source).foldlM (db.scanEntry source) { s with incTl := s.incTl - 1 }
  else none

def scanLoop : ℕ → IncState → Option IncState
  | 0, _ => none
  | fuel + 1, s =>
    if s.missing = [] ∧ s.incHd ≠ s.incTl then db.scanSource s >>= scanLoop fuel else some s

/-- `while ( this->inc_visit.set_first( uid, this->max_uid ) )` -/
def orphanLoop (kv : BitSetKv) : ℕ → IncState → Option (Option ℕ × IncState)
  | 0, _ => none
  | fuel + 1, s =>
    match kv.setFirst s.incVisit db.nextUid with
    | none => some (none, s)
    | some uid =>
      let s := { s with incVisit := insert uid s.incVisit }
      if db.authenticated uid then some (some uid, s) else orphanLoop kv fuel s

/-- The first call sets up the search. -/
def startSearch (s : IncState) : Option IncState :=
  if s.incRunning then some s
  else
    db.pushIncList
      { s with
        incTl := db.nextUid
        incHd := db.nextUid
        missing := []
        incVisit := {0}
        incRunning := true } 0

/-- `find_inconsistent2`. The loops end within the fuel, as none of them goes over a uid
twice. -/
def findInconsistent2 (kv : BitSetKv) (s : IncState) : Option (Found × IncState) := do
  let s ← db.startSearch s
  let s ← db.scanLoop (db.nextUid + 1) s
  match s.missing with
  | m :: rest => return (.linkMissing m.1 m.2, { s with missing := rest })
  | [] =>
    match ← db.orphanLoop kv (db.nextUid + 1) s with
    | (some uid, s) => return (.uidOrphaned uid, s)
    | (none, s) => return (.consistent, { s with incRunning := false })

/-- Repeated calls, and what they return. -/
inductive Calls (kv : BitSetKv) : IncState → List Found → IncState → Prop
  | nil (s : IncState) : Calls kv s [] s
  | cons {s s' s'' : IncState} {r : Found} {rs : List Found} :
      db.findInconsistent2 kv s = some (r, s') → Calls kv s' rs s'' → Calls kv s (r :: rs) s''

/-- The entries of `source` that are rejected, as pairs of uids. -/
def rejectedOf (source : ℕ) (es : List (AdjacencySpace × ℕ)) : List (ℕ × ℕ) :=
  (es.filter fun e => !db.matchTargetSet source e.2 e.1).map fun e => (source, e.2)

/-- The links of a user that the other side does not have. -/
def rejected (source : ℕ) : List (ℕ × ℕ) := db.rejectedOf source (db.entries source)

/-- The links are those of the users that are reached, each once, and the orphans are the
authenticated users that are not. -/
structure Reported (links : List (ℕ × ℕ)) (orphans : List ℕ) : Prop where
  links : ∃ users : List ℕ, users.Nodup ∧ (∀ u, u ∈ users ↔ db.Reachable u) ∧
    links.Perm (users.flatMap db.rejected)
  nodup : orphans.Nodup
  orphans : ∀ u, u ∈ orphans ↔ db.authenticated u = true ∧ ¬ db.Reachable u

/-- First the links, then the orphans, and then that all is done. -/
def returns (links : List (ℕ × ℕ)) (orphans : List ℕ) : List Found :=
  links.map (fun m => .linkMissing m.1 m.2) ++ (orphans.map .uidOrphaned ++ [.consistent])

/-! ## The list of uids that wait -/

/-- `inc_list` has the uids from `inc_hd` up to `inc_tl`. -/
structure Holds (s : IncState) (queue : List ℕ) : Prop where
  tl : s.incHd + queue.length = s.incTl
  le : s.incTl ≤ db.nextUid
  get : ∀ i (h : i < queue.length), s.incList (s.incHd + i) = queue[i]

variable {db : UidDB} {s : IncState} {queue : List ℕ}

theorem Holds.clearSpace (h : db.Holds s queue) (hhd : s.incHd = 0) :
    db.Holds (db.clearSpace s) queue := by
  have htl := h.tl
  have hle := h.le
  rw [hhd, Nat.zero_add] at htl
  refine ⟨?_, Nat.le_refl _, ?_⟩
  · show db.nextUid - s.incTl + queue.length = db.nextUid
    omega
  · intro i hi
    have hin : db.nextUid - s.incTl ≤ db.nextUid - s.incTl + i ∧
        db.nextUid - s.incTl + i < db.nextUid := by omega
    have hget := h.get i hi
    rw [hhd, Nat.zero_add] at hget
    show (if _ ≤ db.nextUid - s.incTl + i ∧ db.nextUid - s.incTl + i < _ then
      s.incList (db.nextUid - s.incTl + i - _) else _) = _
    rw [if_pos hin, Nat.add_sub_cancel_left, hget]

/-- Only the list of uids that wait is changed. -/
structure SameMarks (s s' : IncState) : Prop where
  visit : s'.incVisit = s.incVisit
  missing : s'.missing = s.missing
  running : s'.incRunning = s.incRunning

/-- There is room for a uid as long as not all of them wait. -/
theorem Holds.push (h : db.Holds s queue) (hroom : queue.length < db.nextUid) (uid : ℕ) :
    ∃ s', db.pushIncList s uid = some s' ∧ db.Holds s' (uid :: queue) ∧ SameMarks s s' := by
  have hfits : ¬ (s.incHd = 0 ∧ db.nextUid < s.incTl) := fun hbad => absurd h.le (by omega)
  -- after the space is cleared the head is not at 0
  obtain ⟨s₁, hs₁, hold, hpos, hsame⟩ : ∃ s₁, s₁ = (if s.incHd = 0 then db.clearSpace s else s) ∧
      db.Holds s₁ queue ∧ 0 < s₁.incHd ∧ SameMarks s s₁ := by
    by_cases hhd : s.incHd = 0
    · refine ⟨db.clearSpace s, (if_pos hhd).symm, h.clearSpace hhd, ?_, rfl, rfl, rfl⟩
      show 0 < db.nextUid - s.incTl
      have htl := h.tl
      omega
    · exact ⟨s, (if_neg hhd).symm, h, Nat.pos_of_ne_zero hhd, rfl, rfl, rfl⟩
  have htl := hold.tl
  have hle := hold.le
  have hbound : 0 < s₁.incHd ∧ s₁.incHd - 1 < db.nextUid := by omega
  refine ⟨{ s₁ with
    incHd := s₁.incHd - 1
    incList := Function.update s₁.incList (s₁.incHd - 1) uid }, ?_, ⟨?_, hle, ?_⟩,
    hsame.visit, hsame.missing, hsame.running⟩
  · unfold pushIncList
    rw [if_neg hfits, ← hs₁]
    exact if_pos hbound
  · show s₁.incHd - 1 + (queue.length + 1) = s₁.incTl
    omega
  · intro i hi
    cases i with
    | zero => exact Function.update_self _ _ _
    | succ i =>
      have hi' : i < queue.length := Nat.lt_of_succ_lt_succ hi
      show Function.update s₁.incList (s₁.incHd - 1) uid (s₁.incHd - 1 + (i + 1)) = queue[i]
      rw [show s₁.incHd - 1 + (i + 1) = s₁.incHd + i by omega,
        Function.update_of_ne (by omega)]
      exact hold.get i hi'

/-! ## The members of the sets of one user -/

/-- What the search knows of the uids: those that wait are visited, and were given out. -/
structure Marks (db : UidDB) (s : IncState) (queue : List ℕ) : Prop where
  holds : db.Holds s queue
  nodup : queue.Nodup
  visited : ∀ u ∈ queue, u ∈ s.incVisit
  lt : ∀ u ∈ s.incVisit, u < db.nextUid

/-- A uid that is not visited is pushed. -/
theorem Marks.visit (h : Marks db s queue) {u : ℕ} (hu : u < db.nextUid) (hnew : u ∉ s.incVisit) :
    ∃ s', db.pushIncList { s with incVisit := insert u s.incVisit } u = some s' ∧
      Marks db s' (u :: queue) ∧ s'.incVisit = insert u s.incVisit ∧ s'.missing = s.missing ∧
      s'.incRunning = s.incRunning := by
  have hroom : queue.length < db.nextUid := by
    have hnodup : (u :: queue).Nodup :=
      List.nodup_cons.mpr ⟨fun hmem => hnew (h.visited u hmem), h.nodup⟩
    refine BitSpace.length_le_of_lt hnodup fun v hv => ?_
    rcases List.mem_cons.mp hv with rfl | hv
    · exact hu
    · exact h.lt v (h.visited v hv)
  have hold : db.Holds { s with incVisit := insert u s.incVisit } queue :=
    ⟨h.holds.tl, h.holds.le, h.holds.get⟩
  obtain ⟨s', hpush, hold', hsame⟩ := hold.push hroom u
  refine ⟨s', hpush, ⟨hold', ?_, ?_, ?_⟩, hsame.visit, hsame.missing, hsame.running⟩
  · exact List.nodup_cons.mpr ⟨fun hmem => hnew (h.visited u hmem), h.nodup⟩
  · intro v hv
    rw [hsame.visit, Finset.mem_insert]
    rcases List.mem_cons.mp hv with rfl | hv
    · exact Or.inl rfl
    · exact Or.inr (h.visited v hv)
  · intro v hv
    rw [hsame.visit, Finset.mem_insert] at hv
    rcases hv with rfl | hv
    · exact hu
    · exact h.lt v hv

/-- What a pass over entries of `source` does: the new members wait in front of the others, and
the rejected ones are on the stack. -/
structure Scanned (db : UidDB) (source : ℕ) (es : List (AdjacencySpace × ℕ)) (s s' : IncState)
    (queue new : List ℕ) : Prop where
  marks : Marks db s' (new ++ queue)
  visit : ∀ u, u ∈ s'.incVisit ↔ u ∈ s.incVisit ∨ u ∈ new
  new : ∀ u ∈ new, u ∉ s.incVisit ∧ ∃ e ∈ es, e.2 = u
  all : ∀ e ∈ es, e.2 ∈ s'.incVisit
  missing : s'.missing = (db.rejectedOf source es).reverse ++ s.missing
  running : s'.incRunning = s.incRunning

theorem Marks.scanEntry (h : Marks db s queue) (source : ℕ) {e : AdjacencySpace × ℕ}
    (he : e.2 < db.nextUid) :
    ∃ s' new, db.scanEntry source s e = some s' ∧ Scanned db source [e] s s' queue new := by
  -- the state after the member is visited
  obtain ⟨s₁, new, hs₁, hmarks, hvisit, hnew, hmem, hmiss, hrun⟩ :
      ∃ s₁ new, db.visitTarget s e.2 = some s₁ ∧
        Marks db s₁ (new ++ queue) ∧ (∀ u, u ∈ s₁.incVisit ↔ u ∈ s.incVisit ∨ u ∈ new) ∧
        (∀ u ∈ new, u ∉ s.incVisit ∧ e.2 = u) ∧ e.2 ∈ s₁.incVisit ∧ s₁.missing = s.missing ∧
        s₁.incRunning = s.incRunning := by
    by_cases hin : e.2 ∈ s.incVisit
    · exact ⟨s, [], if_pos hin, h, by simp, by simp, hin, rfl, rfl⟩
    · obtain ⟨s₁, hpush, hmarks, hvisit, hmiss, hrun⟩ := h.visit he hin
      refine ⟨s₁, [e.2], (if_neg hin).trans hpush, hmarks, ?_, ?_, ?_, hmiss, hrun⟩
      · intro u
        rw [hvisit, Finset.mem_insert, List.mem_singleton, or_comm]
      · intro u hu
        rw [List.mem_singleton] at hu
        exact ⟨hu ▸ hin, hu.symm⟩
      · rw [hvisit]
        exact Finset.mem_insert_self _ _
  have hnew' : ∀ u ∈ new, u ∉ s.incVisit ∧ ∃ e' ∈ [e], e'.2 = u := by
    intro u hu
    exact ⟨(hnew u hu).1, e, List.mem_singleton_self e, (hnew u hu).2⟩
  have hall : ∀ e' ∈ [e], e'.2 ∈ s₁.incVisit := by
    intro e' he'
    rw [List.mem_singleton.1 he']
    exact hmem
  cases hmatch : db.matchTargetSet source e.2 e.1 with
  | true =>
    refine ⟨s₁, new, ?_, hmarks, hvisit, ?_, ?_, ?_, hrun⟩
    · rw [UidDB.scanEntry, hs₁]
      simp [hmatch]
    · exact hnew'
    · exact hall
    · simp [rejectedOf, hmatch, hmiss]
  | false =>
    refine ⟨{ s₁ with missing := (source, e.2) :: s₁.missing }, new, ?_,
      ⟨⟨hmarks.holds.tl, hmarks.holds.le, hmarks.holds.get⟩, hmarks.nodup, hmarks.visited,
        hmarks.lt⟩, hvisit, ?_, ?_, ?_, hrun⟩
    · rw [UidDB.scanEntry, hs₁]
      simp [hmatch]
    · exact hnew'
    · exact hall
    · simp [rejectedOf, hmatch, hmiss]

theorem Scanned.append {source : ℕ} {es es' : List (AdjacencySpace × ℕ)} {s s₁ s₂ : IncState}
    {queue new new' : List ℕ} (h : Scanned db source es s s₁ queue new)
    (h' : Scanned db source es' s₁ s₂ (new ++ queue) new') :
    Scanned db source (es ++ es') s s₂ queue (new' ++ new) := by
  constructor
  · rw [List.append_assoc]
    exact h'.marks
  · intro u
    rw [h'.visit, h.visit, List.mem_append, or_assoc, or_comm (a := u ∈ new)]
  · intro u hu
    rcases List.mem_append.mp hu with hu | hu
    · obtain ⟨hnot, e, he, heq⟩ := h'.new u hu
      rw [h.visit, not_or] at hnot
      exact ⟨hnot.1, e, List.mem_append_right _ he, heq⟩
    · obtain ⟨hnot, e, he, heq⟩ := h.new u hu
      exact ⟨hnot, e, List.mem_append_left _ he, heq⟩
  · intro e he
    rcases List.mem_append.mp he with he | he
    · rw [h'.visit]
      exact Or.inl (h.all e he)
    · exact h'.all e he
  · rw [h'.missing, h.missing, rejectedOf, rejectedOf, rejectedOf, List.filter_append,
      List.map_append, List.reverse_append, List.append_assoc]
  · exact h'.running.trans h.running

theorem Marks.scanEntries (h : Marks db s queue) (source : ℕ) {es : List (AdjacencySpace × ℕ)}
    (hes : ∀ e ∈ es, e.2 < db.nextUid) :
    ∃ s' new, es.foldlM (db.scanEntry source) s = some s' ∧
      Scanned db source es s s' queue new := by
  induction es generalizing s queue with
  | nil => exact ⟨s, [], rfl, h, by simp, by simp, by simp, rfl, rfl⟩
  | cons e es ih =>
    rw [List.forall_mem_cons] at hes
    obtain ⟨s₁, new, hstep, hscan⟩ := h.scanEntry source hes.1
    obtain ⟨s₂, new', hrest, hscan'⟩ := ih hscan.marks hes.2
    refine ⟨s₂, new' ++ new, ?_, hscan.append hscan'⟩
    rw [List.foldlM_cons, hstep]
    exact hrest

/-! ## The search over the users -/

/-- The search so far: `done` are the users whose sets have been looked at, `out` the links that
were returned. -/
structure Search (db : UidDB) (s : IncState) (done queue : List ℕ) (out : List (ℕ × ℕ)) :
    Prop where
  marks : Marks db s queue
  nodup : (queue ++ done).Nodup
  visit : ∀ u, u ∈ s.incVisit ↔ u ∈ queue ∨ u ∈ done
  start : 0 ∈ s.incVisit
  reach : ∀ u ∈ s.incVisit, db.Reachable u
  closed : ∀ u ∈ done, ∀ v, db.Linked u v → v ∈ s.incVisit
  missing : (out ++ s.missing).Perm (done.flatMap db.rejected)
  running : s.incRunning = true

theorem Search.done_lt {done : List ℕ} {out : List (ℕ × ℕ)} (h : Search db s done queue out)
    {u : ℕ} (hu : u ∈ done) : u < db.nextUid :=
  h.marks.lt u ((h.visit u).mpr (Or.inr hu))

/-- When no uid waits, all that can be reached is visited. -/
theorem Search.visit_iff {done : List ℕ} {out : List (ℕ × ℕ)} (h : Search db s done [] out)
    (u : ℕ) : u ∈ s.incVisit ↔ db.Reachable u := by
  refine ⟨h.reach u, fun hreach => ?_⟩
  induction hreach with
  | refl => exact h.start
  | tail _ hlast ih =>
    apply h.closed _ _ _ hlast
    simpa [h.visit] using ih

/-- One turn of the loop looks at one more user. -/
theorem Search.scanSource {done : List ℕ} {out : List (ℕ × ℕ)} {u : ℕ}
    (h : Search db s done (queue ++ [u]) out) :
    ∃ s' new, db.scanSource s = some s' ∧ Search db s' (u :: done) (new ++ queue) out := by
  have hlen : (queue ++ [u]).length = queue.length + 1 := by simp
  have htl := h.marks.holds.tl
  have hle := h.marks.holds.le
  rw [hlen] at htl
  have hbound : 0 < s.incTl ∧ s.incTl - 1 < db.nextUid := by omega
  have hsource : s.incList (s.incTl - 1) = u := by
    have hget := h.marks.holds.get queue.length (by simp)
    rw [List.getElem_concat_length rfl] at hget
    rw [← hget]
    congr 1
    omega
  have hqd : (queue ++ done).Nodup ∧ u ∉ queue ++ done := by
    have hnodup := h.nodup
    rw [List.append_assoc, List.singleton_append, List.nodup_middle, List.nodup_cons] at hnodup
    exact ⟨hnodup.2, hnodup.1⟩
  -- the uid is taken from the tail
  have hmarks : Marks db { s with incTl := s.incTl - 1 } queue := by
    refine ⟨⟨?_, ?_, ?_⟩, hqd.1.of_append_left, ?_, h.marks.lt⟩
    · show s.incHd + queue.length = s.incTl - 1
      omega
    · show s.incTl - 1 ≤ db.nextUid
      omega
    · intro i hi
      have hget := h.marks.holds.get i (by rw [hlen]; omega)
      rw [List.getElem_append_left hi] at hget
      exact hget
    · intro v hv
      exact h.marks.visited v (List.mem_append_left _ hv)
  obtain ⟨s', new, hfold, hscan⟩ := hmarks.scanEntries u fun e he => db.lt_of_mem_entries he
  refine ⟨s', new, ?_, ?_⟩
  · unfold UidDB.scanSource
    rw [if_pos hbound]
    simp only [hsource]
    exact hfold
  have hu : u ∈ s.incVisit := (h.visit u).mpr (Or.inl (by simp))
  have hnewQueue : ∀ v ∈ new, v ∉ queue ∧ v ∉ u :: done := by
    intro v hv
    have hnot := (hscan.new v hv).1
    change v ∉ s.incVisit at hnot
    rw [h.visit] at hnot
    simp only [List.mem_append, List.mem_cons] at hnot ⊢
    tauto
  constructor
  · exact hscan.marks
  · rw [List.append_assoc, List.nodup_append']
    have hnew := (List.nodup_append'.mp hscan.marks.nodup).1
    refine ⟨hnew, ?_, ?_⟩
    · rw [List.nodup_middle, List.nodup_cons]
      exact ⟨hqd.2, hqd.1⟩
    · intro v hv hmem
      obtain ⟨h1, h2⟩ := hnewQueue v hv
      rcases List.mem_append.mp hmem with hmem | hmem
      · exact h1 hmem
      · exact h2 hmem
  · intro v
    rw [hscan.visit]
    show v ∈ s.incVisit ∨ _ ↔ _
    rw [h.visit]
    simp only [List.mem_append, List.mem_cons]
    tauto
  · rw [hscan.visit]
    exact Or.inl h.start
  · intro v hv
    rcases (hscan.visit v).mp hv with hv | hv
    · exact h.reach v hv
    · obtain ⟨-, e, he, rfl⟩ := hscan.new v hv
      exact (h.reach u hu).tail ⟨e.1, he⟩
  · intro v hv w hlink
    rcases List.mem_cons.mp hv with rfl | hv
    · obtain ⟨set, hmem⟩ := hlink
      exact hscan.all _ hmem
    · rw [hscan.visit]
      exact Or.inl (h.closed v hv w hlink)
  · rw [hscan.missing, List.flatMap_cons]
    have hrej : (db.rejectedOf u (db.entries u)).reverse.Perm (db.rejected u) :=
      List.reverse_perm _
    have hswap : (out ++ ((db.rejectedOf u (db.entries u)).reverse ++ s.missing)).Perm
        ((db.rejectedOf u (db.entries u)).reverse ++ (out ++ s.missing)) := by
      rw [← List.append_assoc, ← List.append_assoc]
      exact List.perm_append_comm.append_right _
    exact hswap.trans (hrej.append h.missing)
  · exact hscan.running.trans h.running

theorem Search.length_done {done : List ℕ} {out : List (ℕ × ℕ)}
    (h : Search db s done queue out) : done.length ≤ db.nextUid :=
  BitSpace.length_le_of_lt h.nodup.of_append_right fun _ => h.done_lt

/-- The loop ends, with a link that is missing or with no user left. -/
theorem Search.scanLoop {done : List ℕ} {out : List (ℕ × ℕ)} {fuel : ℕ}
    (h : Search db s done queue out) (hfuel : db.nextUid < fuel + done.length) :
    ∃ s' done' queue', db.scanLoop fuel s = some s' ∧ Search db s' done' queue' out ∧
      (s'.missing ≠ [] ∨ queue' = []) := by
  induction fuel generalizing s done queue with
  | zero => exact absurd h.length_done (by omega)
  | succ fuel ih =>
    unfold UidDB.scanLoop
    by_cases hmiss : s.missing = []
    · rcases List.eq_nil_or_concat' queue with rfl | ⟨front, u, rfl⟩
      · have hempty : s.incHd = s.incTl := h.marks.holds.tl
        rw [if_neg fun hgo => hgo.2 hempty]
        exact ⟨s, done, [], rfl, h, Or.inr rfl⟩
      · have hne : s.incHd ≠ s.incTl := by
          have htl := h.marks.holds.tl
          simp only [List.length_append, List.length_singleton] at htl
          omega
        obtain ⟨s₁, new, hscan, h₁⟩ := h.scanSource
        rw [if_pos ⟨hmiss, hne⟩, hscan]
        exact ih h₁ (by simp only [List.length_cons]; omega)
    · rw [if_neg fun hgo => hmiss hgo.1]
      exact ⟨s, done, queue, rfl, h, Or.inl hmiss⟩

/-! ## The users that were not reached -/

/-- The users have all been looked at, and `found` of the rest were returned. -/
structure Orphans (db : UidDB) (s : IncState) (found : List ℕ) : Prop where
  empty : s.incHd = s.incTl
  missing : s.missing = []
  running : s.incRunning = true
  reach : ∀ u, db.Reachable u → u ∈ s.incVisit
  lt : ∀ u ∈ s.incVisit, u < db.nextUid
  nodup : found.Nodup
  found : ∀ u, u ∈ found ↔ u ∈ s.incVisit ∧ db.authenticated u = true ∧ ¬ db.Reachable u

theorem Search.orphans {done : List ℕ} {out : List (ℕ × ℕ)} (h : Search db s done [] out)
    (hmiss : s.missing = []) : Orphans db s [] := by
  refine ⟨h.marks.holds.tl, hmiss, h.running, fun u => (h.visit_iff u).mpr, h.marks.lt,
    List.nodup_nil, ?_⟩
  intro u
  simp only [List.not_mem_nil, false_iff, not_and]
  rintro hu - hnot
  exact hnot (h.reach u hu)

/-- A uid that is not visited is marked, and is found if it is authenticated. -/
theorem Orphans.mark {found : List ℕ} (h : Orphans db s found) {u : ℕ} (hlt : u < db.nextUid)
    (hnew : u ∉ s.incVisit) :
    Orphans db { s with incVisit := insert u s.incVisit }
      (if db.authenticated u then found ++ [u] else found) := by
  have hnot : ¬ db.Reachable u := fun hreach => hnew (h.reach u hreach)
  have hout : u ∉ found := fun hmem => hnew ((h.found u).mp hmem).1
  refine ⟨h.empty, h.missing, h.running, ?_, ?_, ?_, ?_⟩
  · intro v hv
    exact Finset.mem_insert_of_mem (h.reach v hv)
  · intro v hv
    rcases Finset.mem_insert.mp hv with rfl | hv
    · exact hlt
    · exact h.lt v hv
  · split
    · exact List.nodup_append'.mpr ⟨h.nodup, List.nodup_singleton u,
        List.disjoint_singleton.mpr hout⟩
    · exact h.nodup
  · intro v
    rw [Finset.mem_insert]
    rcases eq_or_ne v u with rfl | hne
    · split
      · next hauth => simp [hauth, hnot]
      · next hauth => simp [hauth, hout]
    · split
      · simp [hne, h.found v]
      · simp [hne, h.found v]

theorem Orphans.orphanLoop (kv : BitSetKv) {found : List ℕ} {fuel : ℕ} (h : Orphans db s found)
    (hfuel : db.nextUid < fuel + s.incVisit.card) :
    ∃ r s', db.orphanLoop kv fuel s = some (r, s') ∧ Orphans db s' (found ++ r.toList) ∧
      (r = none → ∀ u < db.nextUid, u ∈ s'.incVisit) := by
  induction fuel generalizing s found with
  | zero =>
    have hsub : s.incVisit ⊆ Finset.range db.nextUid :=
      fun u hu => Finset.mem_range.mpr (h.lt u hu)
    have hcard := Finset.card_le_card hsub
    rw [Finset.card_range] at hcard
    omega
  | succ fuel ih =>
    unfold UidDB.orphanLoop
    cases hfirst : kv.setFirst s.incVisit db.nextUid with
    | none =>
      refine ⟨none, s, rfl, ?_, fun _ => kv.full hfirst⟩
      simpa using h
    | some u =>
      obtain ⟨hlt, hnew⟩ := kv.fresh hfirst
      have hmark := h.mark hlt hnew
      simp only
      split
      · next hauth =>
          rw [if_pos hauth] at hmark
          exact ⟨some u, _, rfl, hmark, fun hnone => by cases hnone⟩
      · next hauth =>
          rw [if_neg hauth] at hmark
          apply ih hmark
          simp only [Finset.card_insert_of_notMem hnew]
          omega

/-! ## A call -/

theorem Orphans.startSearch {found : List ℕ} (h : Orphans db s found) :
    db.startSearch s = some s := if_pos h.running

theorem Orphans.scanLoop {found : List ℕ} (h : Orphans db s found) (fuel : ℕ) :
    db.scanLoop (fuel + 1) s = some s := by
  unfold UidDB.scanLoop
  rw [if_neg fun hgo => hgo.2 h.empty]

/-- A call when all users have been looked at. -/
theorem Orphans.call (kv : BitSetKv) {found : List ℕ} (h : Orphans db s found) :
    (∃ u s', db.findInconsistent2 kv s = some (.uidOrphaned u, s') ∧
      Orphans db s' (found ++ [u])) ∨
    (∃ s', db.findInconsistent2 kv s = some (.consistent, s') ∧ s'.incRunning = false ∧
      ∀ u, u ∈ found ↔ db.authenticated u = true ∧ ¬ db.Reachable u) := by
  obtain ⟨r, s', hloop, hor, hfull⟩ := h.orphanLoop kv
    (show db.nextUid < db.nextUid + 1 + s.incVisit.card by omega)
  have hcall : db.findInconsistent2 kv s = (match (r, s') with
      | (some uid, s) => some (Found.uidOrphaned uid, s)
      | (none, s) => some (Found.consistent, { s with incRunning := false })) := by
    unfold findInconsistent2
    simp only [h.startSearch, h.scanLoop, Option.bind_eq_bind, Option.bind_some, h.missing, hloop]
    cases r <;> rfl
  cases r with
  | some u => exact Or.inl ⟨u, s', hcall, hor⟩
  | none =>
    refine Or.inr ⟨_, hcall, rfl, ?_⟩
    intro u
    simp only [Option.toList_none, List.append_nil] at hor
    rw [hor.found u]
    refine and_iff_right_of_imp ?_
    rintro ⟨hauth, -⟩
    exact hfull rfl u (db.peer_lt u hauth)

/-- A call while users are looked at returns a link, or finds none and goes on to the users
that were not reached. -/
theorem Search.call (kv : BitSetKv) {done : List ℕ} {out : List (ℕ × ℕ)}
    (h : Search db s done queue out) :
    (∃ m s' done' queue', db.findInconsistent2 kv s = some (.linkMissing m.1 m.2, s') ∧
      Search db s' done' queue' (out ++ [m])) ∨
    (∃ s' done', db.findInconsistent2 kv s = db.findInconsistent2 kv s' ∧
      Search db s' done' [] out ∧ s'.missing = []) := by
  obtain ⟨s₁, done', queue', hloop, h₁, hend⟩ :=
    h.scanLoop (show db.nextUid < db.nextUid + 1 + done.length by omega)
  have hstart : db.startSearch s = some s := if_pos h.running
  cases hmiss : s₁.missing with
  | cons m rest =>
    refine Or.inl ⟨m, { s₁ with missing := rest }, done', queue', ?_, ?_⟩
    · unfold findInconsistent2
      simp only [hstart, hloop, Option.bind_eq_bind, Option.bind_some, hmiss]
      rfl
    · have hperm := h₁.missing
      rw [hmiss] at hperm
      refine ⟨⟨⟨h₁.marks.holds.tl, h₁.marks.holds.le, h₁.marks.holds.get⟩, h₁.marks.nodup,
        h₁.marks.visited, h₁.marks.lt⟩, h₁.nodup, h₁.visit, h₁.start, h₁.reach, h₁.closed, ?_,
        h₁.running⟩
      simpa using hperm
  | nil =>
    obtain rfl : queue' = [] := hend.resolve_left fun hne => hne hmiss
    refine Or.inr ⟨s₁, done', ?_, h₁, hmiss⟩
    have hor := h₁.orphans hmiss
    unfold findInconsistent2
    simp only [hstart, hloop, hor.startSearch, hor.scanLoop, Option.bind_eq_bind,
      Option.bind_some]

/-! ## All the calls -/

theorem returns_ne_nil (links : List (ℕ × ℕ)) (orphans : List ℕ) : returns links orphans ≠ [] := by
  simp [returns]

theorem Calls.of_eq {kv : BitSetKv} {s s₁ s' : IncState} {links : List (ℕ × ℕ)}
    {orphans : List ℕ} (hcalls : db.Calls kv s₁ (returns links orphans) s')
    (h : db.findInconsistent2 kv s = db.findInconsistent2 kv s₁) :
    db.Calls kv s (returns links orphans) s' := by
  have hne := returns_ne_nil links orphans
  generalize returns links orphans = rs at hcalls hne ⊢
  cases hcalls with
  | nil => exact absurd rfl hne
  | cons hcall hrest => exact .cons (h.trans hcall) hrest

theorem Orphans.length_found {found : List ℕ} (h : Orphans db s found) :
    found.length ≤ db.nextUid :=
  BitSpace.length_le_of_lt h.nodup fun u hu => h.lt u ((h.found u).mp hu).1

/-- The users that were not reached are returned, each once, and then that all is done. -/
theorem Orphans.calls (kv : BitSetKv) {found : List ℕ} (h : Orphans db s found) :
    ∃ more s', db.Calls kv s (returns [] more) s' ∧
      s'.incRunning = false ∧ (found ++ more).Nodup ∧
      ∀ u, u ∈ found ++ more ↔ db.authenticated u = true ∧ ¬ db.Reachable u := by
  -- every call but the last finds one more of the uids that were given out
  have hlen := h.length_found
  obtain ⟨n, hn⟩ : ∃ n, n + found.length = db.nextUid := ⟨db.nextUid - found.length, by omega⟩
  clear hlen
  induction n generalizing s found with
  | zero =>
    rcases h.call kv with ⟨u, s', -, h'⟩ | ⟨s', hcall, hrun, hall⟩
    · -- no uid is left to be found
      have hmore := h'.length_found
      rw [List.length_append, List.length_singleton] at hmore
      omega
    · exact ⟨[], s', .cons hcall (.nil s'), hrun, by simpa using h.nodup, by simpa using hall⟩
  | succ n ih =>
    rcases h.call kv with ⟨u, s', hcall, h'⟩ | ⟨s', hcall, hrun, hall⟩
    · obtain ⟨more, s'', hcalls, hrun, hnodup, hall⟩ := ih h' (by
        rw [List.length_append, List.length_singleton]
        omega)
      rw [List.append_assoc] at hnodup hall
      exact ⟨u :: more, s'', .cons hcall hcalls, hrun, hnodup, hall⟩
    · exact ⟨[], s', .cons hcall (.nil s'), hrun, by simpa using h.nodup, by simpa using hall⟩

/-- There are no more links to return than there are in the sets. -/
theorem Search.length_out {done : List ℕ} {out : List (ℕ × ℕ)}
    (h : Search db s done queue out) :
    out.length ≤ ∑ u ∈ Finset.range db.nextUid, (db.rejected u).length := by
  have hlen := h.missing.length_eq
  rw [List.length_append, List.length_flatMap] at hlen
  have hsum : (done.map fun u => (db.rejected u).length).sum =
      ∑ u ∈ done.toFinset, (db.rejected u).length :=
    (List.sum_toFinset _ h.nodup.of_append_right).symm
  have hsub : done.toFinset ⊆ Finset.range db.nextUid := by
    intro u hu
    exact Finset.mem_range.mpr (h.done_lt (List.mem_toFinset.mp hu))
  have hle := Finset.sum_le_sum_of_subset (f := fun u => (db.rejected u).length) hsub
  omega

/-- When all users have been looked at. -/
theorem Search.calls_of_eq (kv : BitSetKv) {done : List ℕ} {out : List (ℕ × ℕ)}
    (h : Search db s done [] out) (hmiss : s.missing = []) {s₀ : IncState}
    (heq : db.findInconsistent2 kv s₀ = db.findInconsistent2 kv s) :
    ∃ links orphans s', db.Calls kv s₀ (returns links orphans) s' ∧ s'.incRunning = false ∧
      db.Reported (out ++ links) orphans := by
  obtain ⟨orphans, s', hcalls, hrun, hnodup, hall⟩ := (h.orphans hmiss).calls kv
  refine ⟨[], orphans, s', hcalls.of_eq heq, hrun, ⟨done, h.nodup.of_append_right, ?_, ?_⟩,
    hnodup, hall⟩
  · intro u
    rw [← h.visit_iff, h.visit]
    simp
  · simpa [hmiss] using h.missing

theorem Search.calls (kv : BitSetKv) {done : List ℕ} {out : List (ℕ × ℕ)}
    (h : Search db s done queue out) :
    ∃ links orphans s', db.Calls kv s (returns links orphans) s' ∧ s'.incRunning = false ∧
      db.Reported (out ++ links) orphans := by
  obtain ⟨n, hn⟩ : ∃ n, n + out.length =
      ∑ u ∈ Finset.range db.nextUid, (db.rejected u).length :=
    ⟨_, Nat.sub_add_cancel h.length_out⟩
  induction n generalizing s done queue out with
  | zero =>
    rcases h.call kv with ⟨m, s', done', queue', -, h'⟩ | ⟨s', done', heq, h', hmiss⟩
    · -- no link is left to be returned
      have hle := h'.length_out
      rw [List.length_append, List.length_singleton] at hle
      omega
    · exact h'.calls_of_eq kv hmiss heq
  | succ n ih =>
    rcases h.call kv with ⟨m, s', done', queue', hcall, h'⟩ | ⟨s', done', heq, h', hmiss⟩
    · obtain ⟨links, orphans, s'', hcalls, hrun, hrep⟩ := ih h' (by
        rw [List.length_append, List.length_singleton]
        omega)
      rw [List.append_assoc] at hrep
      exact ⟨m :: links, orphans, s'', .cons hcall hcalls, hrun, hrep⟩
    · exact h'.calls_of_eq kv hmiss heq

/-- The search at its start. -/
theorem search_start (hstop : s.incRunning = false) :
    ∃ s', db.startSearch s = some s' ∧ Search db s' [] [0] [] := by
  have hmarks : Marks db { s with
      incTl := db.nextUid, incHd := db.nextUid, missing := [], incVisit := ∅, incRunning := true }
      [] :=
    ⟨⟨rfl, Nat.le_refl _, fun i hi => by cases hi⟩, List.nodup_nil, by simp, by simp⟩
  obtain ⟨s', hpush, hmarks', hvisit, hmiss, hrun⟩ := hmarks.visit db.nextUid_pos (by simp)
  refine ⟨s', ?_, hmarks', by simp, ?_, ?_, ?_, by simp, ?_, hrun⟩
  · unfold startSearch
    rw [if_neg (by simp [hstop])]
    exact hpush
  · intro u
    simp [hvisit]
  · simp [hvisit]
  · intro u hu
    rw [hvisit] at hu
    obtain rfl : u = 0 := by simpa using hu
    exact Relation.ReflTransGen.refl
  · rw [hmiss]
    exact List.Perm.refl _

/-- **Repeated calls return each link that the other side does not have, then each user that is
not reached, and then that all is done**; and no index is outside of `inc_list`. -/
theorem calls_report (kv : BitSetKv) (db : UidDB) (s : IncState) (hstop : s.incRunning = false) :
    ∃ links orphans s', db.Calls kv s (returns links orphans) s' ∧ s'.incRunning = false ∧
      db.Reported links orphans := by
  obtain ⟨s', hstart, hsearch⟩ := db.search_start hstop
  obtain ⟨links, orphans, s'', hcalls, hrun, hrep⟩ := hsearch.calls kv
  refine ⟨links, orphans, s'', ?_, hrun, hrep⟩
  have heq : db.findInconsistent2 kv s = db.findInconsistent2 kv s' := by
    unfold findInconsistent2
    rw [hstart, show db.startSearch s' = some s' from if_pos hsearch.running]
  exact hcalls.of_eq heq

/-- This node is connected to 1, which does not say so, and 2 is connected to nobody. -/
def oneSided : UidDB where
  me := ⟨"a", 0, 1, fun t =>
    if t = 0 then some { AdjacencySpace.new with members := {1} } else none⟩
  peer uid :=
    if uid = 1 then some ⟨"b", 1, .empty⟩ else if uid = 2 then some ⟨"c", 2, .empty⟩ else none
  nextUid := 3
  peer_lt := by
    intro uid h
    by_contra hge
    rw [if_neg (by omega), if_neg (by omega)] at h
    cases h
  nextUid_pos := by decide
  members_lt := by
    intro uid t set hset b hb
    simp only [LinkDB.adjacencyOf, LinkDB.entry] at hset
    split at hset
    · by_cases ht : t = 0
      · simp only [Option.map_some, Option.getD_some, ht, if_true, Option.some.injEq] at hset
        subst hset
        obtain rfl : b = 1 := by simpa using hb
        decide
      · simp [ht] at hset
    · split at hset
      · simp [AdjacencyTab.empty] at hset
      · split at hset
        · simp [AdjacencyTab.empty] at hset
        · simp [AdjacencyTab.empty] at hset

theorem calls_report_oneSided :
    (∃ links orphans s', oneSided.Calls .lowest (clearCache ⟨fun _ => 0, 0, 0, ∅, [], true⟩)
        (returns links orphans) s' ∧ s'.incRunning = false ∧ oneSided.Reported links orphans) ∧
      (oneSided.findInconsistent2 .lowest (clearCache ⟨fun _ => 0, 0, 0, ∅, [], true⟩)).map
        Prod.fst = some (.linkMissing 0 1) :=
  ⟨calls_report .lowest oneSided _ rfl, by decide⟩

end UidDB

end Raims
