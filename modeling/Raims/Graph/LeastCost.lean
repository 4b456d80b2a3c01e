import Raims.Graph.SearchCost
import Raims.Lib.LabelSearch

/-!
# The search finds the least cost

A user on the stack was reached by a path that meets nobody twice, and each user on it has a
label that is not above the cost there; so a user that is found again on its own path is not
pushed, and the sums that the search forms are sums of such paths. A user that has left the stack
was looked at under its label, or one more link from it is no gain, so when the stack is empty no
path to `dest_uid` is cheaper than `min_cost`.
-/

namespace Raims

namespace UidDB

open LabelSearch

/-- A link from `a` to `b`, at its cost on path `p`. -/
def Edge (db : UidDB) (p : UInt16) (a b k : ℕ) : Prop :=
  ∃ set, (set, b) ∈ db.entries a ∧ (set.cost.get p).toNat = k

/-- `c` is the least cost of a path to `dest`, or `COST_MAXIMUM` when there is none. -/
def Best (E : ℕ → ℕ → ℕ → Prop) (Start : ℕ → ℕ → Prop) (dest : ℕ) (c : UInt32) : Prop :=
  IsLeast E Start dest c.toNat ∨ (∀ c', ¬ Arrives E Start dest c') ∧ c = COST_MAXIMUM

/-- The paths that a search is about: they begin as `Start` says and go over the links of the
users that are not avoided, each at a cost of at least one, and no sum along one of them that
meets nobody twice is past 32 bits. -/
structure SearchPaths (db : UidDB) (p : UInt16) (E : ℕ → ℕ → ℕ → Prop) (Start : ℕ → ℕ → Prop)
    (avoid : ℕ → Prop) : Prop where
  edge : ∀ {a b k}, E a b k ↔ ¬ avoid a ∧ db.Edge p a b k
  pos : ∀ a b k, E a b k → 1 ≤ k
  fits : ∀ {vs a c b k}, Trail E Start (fun _ => 0) vs a c → E a b k → c + k < 2 ^ 32
  start_lt : ∀ {a c}, Start a c → c < 2 ^ 32

/-! ## The tasks -/

section Tasks

variable {db : UidDB} {p : UInt16} {dest : ℕ} {d dist : UInt32} {uid b : ℕ}

theorem mem_linkTasks {task : Task} : task ∈ db.linkTasks p dest d uid ↔
    ∃ t < db.adjacencyCount uid, ∃ set, db.adjacencySet uid t = some set ∧
      task ∈ setTasks p dest d set := by
  unfold linkTasks
  rw [List.mem_flatMap]
  constructor
  · rintro ⟨t, ht, hmem⟩
    cases hset : db.adjacencySet uid t with
    | none => simp [hset] at hmem
    | some set =>
      rw [hset] at hmem
      exact ⟨t, List.mem_range.mp ht, set, hset, hmem⟩
  · rintro ⟨t, ht, set, hset, hmem⟩
    refine ⟨t, List.mem_range.mpr ht, ?_⟩
    rw [hset]
    exact hmem

/-- A user is pushed over a link of a set that the destination is not in. -/
theorem relax_mem_linkTasks (h : Task.relax b dist ∈ db.linkTasks p dest d uid) :
    b ≠ dest ∧ ∃ set, (set, b) ∈ db.entries uid ∧ dist = d + set.cost.get p := by
  obtain ⟨t, ht, set, hset, hmem⟩ := mem_linkTasks.mp h
  unfold setTasks at hmem
  split at hmem
  · cases List.mem_singleton.mp hmem
  · next hdest =>
      obtain ⟨b', hb', heq⟩ := List.mem_map.mp hmem
      cases heq
      rw [BitSpace.mem_toList] at hb'
      refine ⟨?_, set, db.mem_entries.mpr ⟨t, ht, hset, hb'⟩, rfl⟩
      rintro rfl
      exact hdest hb'

theorem found_mem_linkTasks (h : Task.found dist ∈ db.linkTasks p dest d uid) :
    ∃ set, (set, dest) ∈ db.entries uid ∧ dist = d + set.cost.get p := by
  obtain ⟨t, ht, set, hset, hmem⟩ := mem_linkTasks.mp h
  unfold setTasks at hmem
  split at hmem
  · next hdest =>
      cases List.mem_singleton.mp hmem
      exact ⟨set, db.mem_entries.mpr ⟨t, ht, hset, hdest⟩, rfl⟩
  · obtain ⟨b, -, heq⟩ := List.mem_map.mp hmem
    cases heq

/-- Every link has its task: the head is pushed, or the destination is in the same set. -/
theorem task_of_mem_entries {set : AdjacencySpace} (h : (set, b) ∈ db.entries uid) :
    Task.relax b (d + set.cost.get p) ∈ db.linkTasks p dest d uid ∨
      Task.found (d + set.cost.get p) ∈ db.linkTasks p dest d uid := by
  obtain ⟨t, ht, hset, hb⟩ := db.mem_entries.mp h
  by_cases hdest : dest ∈ set.members
  · refine Or.inr (mem_linkTasks.mpr ⟨t, ht, set, hset, ?_⟩)
    simp [setTasks, hdest]
  · refine Or.inl (mem_linkTasks.mpr ⟨t, ht, set, hset, ?_⟩)
    simp only [setTasks, hdest, if_false]
    exact List.mem_map.mpr ⟨b, BitSpace.mem_toList.mpr hb, rfl⟩

end Tasks

/-! ## What the search finds is there -/

/-- The costs of the users, with none for the destination. -/
def label (dest : ℕ) (visit : ℕ → UInt32) (uid : ℕ) : ℕ :=
  if uid = dest then 0 else (visit uid).toNat

/-- Every user on the stack and every task comes from a path. -/
structure Sound (E : ℕ → ℕ → ℕ → Prop) (Start : ℕ → ℕ → Prop) (avoid : ℕ → Prop) (dest : ℕ)
    (s : SearchState) : Prop where
  stack : ∀ e ∈ s.stack, ¬ avoid e.1 ∧ ∃ vs, Trail E Start (label dest s.visit) vs e.1 e.2.toNat
  push : ∀ uid dist, Task.push uid dist ∈ s.todo →
    Start uid dist.toNat ∧ ¬ avoid uid ∧ uid ≠ dest ∧ dist ≤ s.visit uid
  same : ∀ uid dist, Task.push uid dist ∈ s.todo → ∀ task ∈ s.todo, ∃ uid', task = .push uid' dist
  relax : ∀ uid dist, Task.relax uid dist ∈ s.todo → ∃ vs a c k,
    Trail E Start (label dest s.visit) vs a c ∧ E a uid k ∧ dist.toNat = c + k ∧
      (uid = dest → dest ∉ vs)
  found : ∀ dist, Task.found dist ∈ s.todo → Arrives E Start dest dist.toNat
  best : s.minCost = COST_MAXIMUM ∨ Arrives E Start dest s.minCost.toNat
  avoid : ∀ uid, avoid uid → s.visit uid = 0

section Sound

variable {db : UidDB} {p : UInt16} {dest : ℕ} {E : ℕ → ℕ → ℕ → Prop} {Start : ℕ → ℕ → Prop}
  {avoid : ℕ → Prop} {s s' : SearchState}

theorem mem_todo_of_cons {task : Task} {rest : List Task} (h : s.todo = task :: rest) :
    ∀ t ∈ rest, t ∈ s.todo := by
  intro t ht
  rw [h]
  exact List.mem_cons_of_mem _ ht

theorem mem_stack_of_cons {top : ℕ × UInt32} {rest : List (ℕ × UInt32)}
    (h : s.stack = top :: rest) : ∀ e ∈ rest, e ∈ s.stack := by
  intro e he
  rw [h]
  exact List.mem_cons_of_mem _ he

theorem label_update_le {visit : ℕ → UInt32} {uid : ℕ} {dist : UInt32} (h : dist ≤ visit uid)
    (a : ℕ) : label dest (Function.update visit uid dist) a ≤ label dest visit a := by
  unfold label
  split
  · exact le_refl 0
  · rcases eq_or_ne a uid with rfl | hne
    · rw [Function.update_self]
      exact UInt32.le_iff_toNat_le.mp h
    · rw [Function.update_of_ne hne]

/-- The destination has no label. -/
theorem label_update_dest (visit : ℕ → UInt32) (dist : UInt32) :
    label dest (Function.update visit dest dist) = label dest visit := by
  funext a
  unfold label
  split
  · rfl
  · next hne => rw [Function.update_of_ne hne]

/-- A user that is pushed is at the end of a path that meets nobody twice. -/
theorem Sound.pushed (h : Sound E Start avoid dest s) {task : Task} {uid : ℕ} {dist : UInt32}
    (hmem : task ∈ s.todo)
    (htask : task = .push uid dist ∨ task = .relax uid dist ∧ dist < s.visit uid) :
    ¬ avoid uid ∧ dist ≤ s.visit uid ∧
      ∃ vs, Trail E Start (label dest (Function.update s.visit uid dist)) vs uid dist.toNat := by
  have hself : label dest (Function.update s.visit uid dist) uid ≤ dist.toNat := by
    unfold label
    split
    · exact Nat.zero_le _
    · rw [Function.update_self]
  rcases htask with rfl | ⟨rfl, hlt⟩
  · obtain ⟨hstart, havoid, -, hle⟩ := h.push uid dist hmem
    exact ⟨havoid, hle, _, .start hstart hself⟩
  · obtain ⟨vs, a, c, k, htrail, hedge, hsum, hdest⟩ := h.relax uid dist hmem
    have hle : dist ≤ s.visit uid := UInt32.le_of_lt hlt
    have hnew : uid ∉ vs := by
      intro hin
      by_cases heq : uid = dest
      · exact hdest heq (heq ▸ hin)
      · -- a user on its own path has a label that is not above the cost there
        have hlabel := htrail.label_le hin
        rw [label, if_neg heq] at hlabel
        have hnat := UInt32.lt_iff_toNat_lt.mp hlt
        omega
    refine ⟨?_, hle, uid :: vs, ?_⟩
    · intro hav
      rw [h.avoid uid hav] at hlt
      exact absurd hlt (UInt32.not_lt.mpr (UInt32.zero_le))
    · rw [hsum] at hself ⊢
      exact (htrail.mono (label_update_le hle)).step hedge hnew hself

/-- The sum of a path and of one more link does not wrap. -/
theorem toNat_link_sum (hp : SearchPaths db p E Start avoid) {vs : List ℕ} {uid b : ℕ}
    {d : UInt32} {set : AdjacencySpace} (havoid : ¬ avoid uid)
    (htrail : Trail E Start (label dest s.visit) vs uid d.toNat)
    (hentry : (set, b) ∈ db.entries uid) :
    E uid b (set.cost.get p).toNat ∧
      (d + set.cost.get p).toNat = d.toNat + (set.cost.get p).toNat := by
  have hedge : E uid b (set.cost.get p).toNat := hp.edge.mpr ⟨havoid, set, hentry, rfl⟩
  refine ⟨hedge, ?_⟩
  rw [UInt32.toNat_add, Nat.mod_eq_of_lt (hp.fits htrail.plain hedge)]

theorem Sound.turned (hp : SearchPaths db p E Start avoid) (h : Sound E Start avoid dest s)
    (hturn : Turned db p dest s s') : Sound E Start avoid dest s' := by
  cases hturn with
  | @push task uid dist rest htodo hroom htask =>
    have hmem : task ∈ s.todo := by simp [htodo]
    have hrest := mem_todo_of_cons htodo
    obtain ⟨havoid, hle, vs, htrail⟩ := h.pushed hmem htask
    refine ⟨?_, ?_, ?_, ?_, fun d hd => h.found d (hrest _ hd), h.best, ?_⟩
    · intro e he
      rcases List.mem_cons.mp he with rfl | he
      · exact ⟨havoid, vs, htrail⟩
      · obtain ⟨hav, vs', htrail'⟩ := h.stack e he
        exact ⟨hav, vs', htrail'.mono (label_update_le hle)⟩
    · intro u d hd
      obtain ⟨hstart, hav, hne, hlow⟩ := h.push u d (hrest _ hd)
      refine ⟨hstart, hav, hne, ?_⟩
      rcases eq_or_ne u uid with rfl | hneq
      · simp only [Function.update_self]
        -- the tasks that push without a test are all at one cost
        obtain ⟨u', heq⟩ := h.same u d (hrest _ hd) task hmem
        rcases htask with rfl | ⟨rfl, -⟩
        · cases heq
          exact UInt32.le_refl _
        · cases heq
      · simpa only [Function.update_of_ne hneq] using hlow
    · exact fun u d hd t ht => h.same u d (hrest _ hd) t (hrest _ ht)
    · intro u d hd
      obtain ⟨vs', a, c, k, htrail', hedge, hsum, hdest⟩ := h.relax u d (hrest _ hd)
      exact ⟨vs', a, c, k, htrail'.mono (label_update_le hle), hedge, hsum, hdest⟩
    · intro u hav
      have hne : u ≠ uid := by
        rintro rfl
        exact havoid hav
      simp only [Function.update_of_ne hne]
      exact h.avoid u hav
  | @skip uid dist rest htodo hvisit =>
    have hrest := mem_todo_of_cons htodo
    exact ⟨h.stack, fun u d hd => h.push u d (hrest _ hd),
      fun u d hd t ht => h.same u d (hrest _ hd) t (hrest _ ht),
      fun u d hd => h.relax u d (hrest _ hd), fun d hd => h.found d (hrest _ hd), h.best, h.avoid⟩
  | @found dist rest htodo =>
    have hrest := mem_todo_of_cons htodo
    have hlabel : label dest (if dist < s.visit dest then Function.update s.visit dest dist
        else s.visit) = label dest s.visit := by
      split
      · exact label_update_dest s.visit dist
      · rfl
    refine ⟨?_, ?_, fun u d hd t ht => h.same u d (hrest _ hd) t (hrest _ ht), ?_,
      fun d hd => h.found d (hrest _ hd), ?_, ?_⟩
    · simp only [hlabel]
      exact h.stack
    · intro u d hd
      obtain ⟨hstart, hav, hne, hlow⟩ := h.push u d (hrest _ hd)
      refine ⟨hstart, hav, hne, ?_⟩
      simp only
      split
      · rwa [Function.update_of_ne hne]
      · exact hlow
    · simp only [hlabel]
      exact fun u d hd => h.relax u d (hrest _ hd)
    · simp only
      split
      · exact Or.inr (h.found dist (by simp [htodo]))
      · exact h.best
    · intro u hav
      simp only
      split
      · next hlt =>
          have hne : u ≠ dest := by
            rintro rfl
            rw [h.avoid u hav] at hlt
            exact absurd hlt (UInt32.not_lt.mpr UInt32.zero_le)
          rw [Function.update_of_ne hne]
          exact h.avoid u hav
      · exact h.avoid u hav
  | @arrive d rest htodo hstack hmin =>
    have htop : (dest, d) ∈ s.stack := by simp [hstack]
    obtain ⟨havoid, vs, htrail⟩ := h.stack _ htop
    refine ⟨?_, by simp [htodo], by simp [htodo], by simp [htodo], by simp [htodo],
      Or.inr htrail.arrives, ?_⟩
    · intro e he
      simp only [label_update_dest]
      exact h.stack e (mem_stack_of_cons hstack e he)
    · intro u hav
      have hne : u ≠ dest := by
        rintro rfl
        exact havoid hav
      simp only [Function.update_of_ne hne]
      exact h.avoid u hav
  | @prune uid d rest htodo hstack hdest hmin =>
    refine ⟨?_, h.push, h.same, h.relax, h.found, h.best, h.avoid⟩
    intro e he
    exact h.stack e (mem_stack_of_cons hstack e he)
  | @expand uid d rest htodo hstack hdest hmin =>
    have htop : (uid, d) ∈ s.stack := by simp [hstack]
    obtain ⟨havoid, vs, htrail⟩ := h.stack _ htop
    refine ⟨?_, ?_, ?_, ?_, ?_, h.best, h.avoid⟩
    · intro e he
      exact h.stack e (mem_stack_of_cons hstack e he)
    · intro u v hv
      exact absurd hv push_notMem_linkTasks
    · intro u v hv
      exact absurd hv push_notMem_linkTasks
    · intro u v hv
      obtain ⟨hne, set, hentry, rfl⟩ := relax_mem_linkTasks hv
      obtain ⟨hedge, hsum⟩ := toNat_link_sum hp havoid htrail hentry
      exact ⟨vs, uid, d.toNat, _, htrail, hedge, hsum, fun heq => absurd heq hne⟩
    · intro v hv
      obtain ⟨set, hentry, rfl⟩ := found_mem_linkTasks hv
      obtain ⟨hedge, hsum⟩ := toNat_link_sum hp havoid htrail hentry
      rw [hsum]
      exact htrail.arrives.step hedge

end Sound

/-! ## No path is missed -/

/-- The destination is found at a cost of at most `c`. -/
def ReachedAt (dest : ℕ) (s : SearchState) (c : ℕ) : Prop :=
  s.minCost.toNat ≤ c ∨ ∃ d, (dest, d) ∈ s.stack ∧ d.toNat ≤ c

/-- The task takes account of a path to `b` of cost `c`. -/
def Covers (b c : ℕ) : Task → Prop
  | .push uid dist => uid = b ∧ dist.toNat ≤ c
  | .relax uid dist => uid = b ∧ dist.toNat ≤ c
  | .found dist => dist.toNat ≤ c

/-- A path to `b` of cost `c` is no gain: the destination is found at that cost, `b` has a label
that is not above it, or a task will see to it. -/
def Seen (dest : ℕ) (s : SearchState) (b c : ℕ) : Prop :=
  ReachedAt dest s c ∨ (b ≠ dest ∧ (s.visit b).toNat ≤ c) ∨ ∃ task ∈ s.todo, Covers b c task

/-- A user that does not wait was looked at under its label, or is too far away. -/
structure Complete (E : ℕ → ℕ → ℕ → Prop) (Start : ℕ → ℕ → Prop) (dest : ℕ)
    (s : SearchState) : Prop where
  start : ∀ a c, Start a c → Seen dest s a c
  target : ∀ dist, Task.relax dest dist ∈ s.todo → ReachedAt dest s (s.visit dest).toNat
  edge : ∀ a b k, a ≠ dest → E a b k → (a, s.visit a) ∈ s.stack ∨
    s.minCost.toNat ≤ (s.visit a).toNat + 1 ∨ Seen dest s b ((s.visit a).toNat + k)

section Complete

variable {db : UidDB} {p : UInt16} {dest : ℕ} {E : ℕ → ℕ → ℕ → Prop} {Start : ℕ → ℕ → Prop}
  {avoid : ℕ → Prop} {s s' : SearchState} {b c c' : ℕ}

theorem ReachedAt.mono (h : ReachedAt dest s c) (hle : c ≤ c') : ReachedAt dest s c' := by
  rcases h with h | ⟨d, hmem, hd⟩
  · exact Or.inl (Nat.le_trans h hle)
  · exact Or.inr ⟨d, hmem, Nat.le_trans hd hle⟩

/-- What is popped is the destination at a cost that is no gain, or another user. -/
theorem ReachedAt.pop {uid : ℕ} {d : UInt32} {rest : List (ℕ × UInt32)} {todo : List Task}
    (h : ReachedAt dest s c) (hstack : s.stack = (uid, d) :: rest)
    (hdest : ¬ (uid = dest ∧ d < s.minCost)) :
    ReachedAt dest { s with stack := rest, todo := todo } c := by
  rcases h with h | ⟨v, hmem, hv⟩
  · exact Or.inl h
  · rw [hstack] at hmem
    rcases List.mem_cons.mp hmem with heq | hmem
    · obtain ⟨rfl, rfl⟩ := Prod.mk.inj heq
      refine Or.inl ?_
      have hle := UInt32.not_lt.mp fun hlt => hdest ⟨rfl, hlt⟩
      exact Nat.le_trans (UInt32.le_iff_toNat_le.mp hle) hv
    · exact Or.inr ⟨v, hmem, hv⟩

theorem ReachedAt.turned (h : ReachedAt dest s c) (hturn : Turned db p dest s s') :
    ReachedAt dest s' c := by
  cases hturn with
  | push htodo hroom htask =>
    exact h.imp_right fun ⟨d, hmem, hd⟩ => ⟨d, List.mem_cons_of_mem _ hmem, hd⟩
  | skip htodo hvisit => exact h
  | @found dist rest htodo =>
    rcases h with h | h
    · refine Or.inl (Nat.le_trans ?_ h)
      simp only
      split
      · next hlt => exact Nat.le_of_lt (UInt32.lt_iff_toNat_lt.mp hlt)
      · exact le_refl _
    · exact Or.inr h
  | @arrive d rest htodo hstack hmin =>
    rcases h with h | ⟨v, hmem, hv⟩
    · exact Or.inl (Nat.le_trans (Nat.le_of_lt (UInt32.lt_iff_toNat_lt.mp hmin)) h)
    · rw [hstack] at hmem
      rcases List.mem_cons.mp hmem with heq | hmem
      · obtain ⟨-, rfl⟩ := Prod.mk.inj heq
        exact Or.inl hv
      · exact Or.inr ⟨v, hmem, hv⟩
  | prune htodo hstack hdest hmin => exact h.pop hstack hdest
  | expand htodo hstack hdest hmin => exact h.pop hstack hdest

/-- The label of a user other than the destination only falls. -/
theorem visit_turned_le (hs : Sound E Start avoid dest s) (hturn : Turned db p dest s s')
    (hne : b ≠ dest) : (s'.visit b).toNat ≤ (s.visit b).toNat := by
  cases hturn with
  | @push task uid dist rest htodo hroom hpush =>
    obtain ⟨-, hlow, -⟩ := hs.pushed (by simp [htodo]) hpush
    rcases eq_or_ne b uid with rfl | hb
    · simp only [Function.update_self]
      exact UInt32.le_iff_toNat_le.mp hlow
    · simp only [Function.update_of_ne hb, le_refl]
  | skip htodo hvisit => exact le_refl _
  | found htodo =>
    simp only
    split
    · rw [Function.update_of_ne hne]
    · exact le_refl _
  | arrive htodo hstack hmin => simp only [Function.update_of_ne hne, le_refl]
  | prune htodo hstack hdest hmin => exact le_refl _
  | expand htodo hstack hdest hmin => exact le_refl _

theorem Seen.turned (hs : Sound E Start avoid dest s) (hc : Complete E Start dest s)
    (hturn : Turned db p dest s s') (h : Seen dest s b c) : Seen dest s' b c := by
  rcases h with h | ⟨hne, hle⟩ | ⟨task, hmem, hcover⟩
  · exact Or.inl (h.turned hturn)
  · exact Or.inr (Or.inl ⟨hne, Nat.le_trans (visit_turned_le hs hturn hne) hle⟩)
  · -- the task is done with this turn, or still waits
    cases hturn with
    | @push first uid dist rest htodo hroom hpush =>
      rw [htodo] at hmem
      rcases List.mem_cons.mp hmem with rfl | hin
      · obtain ⟨rfl, hle⟩ : uid = b ∧ dist.toNat ≤ c := by
          rcases hpush with rfl | ⟨rfl, -⟩ <;> exact hcover
        by_cases hdest : uid = dest
        · exact Or.inl (Or.inr ⟨dist, by simp [hdest], hle⟩)
        · exact Or.inr (Or.inl ⟨hdest, by simpa using hle⟩)
      · exact Or.inr (Or.inr ⟨task, hin, hcover⟩)
    | @skip uid dist rest htodo hvisit =>
      rw [htodo] at hmem
      rcases List.mem_cons.mp hmem with rfl | hin
      · obtain ⟨rfl, hle⟩ := hcover
        have hlow := UInt32.le_iff_toNat_le.mp (UInt32.not_lt.mp hvisit)
        by_cases hdest : uid = dest
        · subst hdest
          have hreach := hc.target dist (by simp [htodo])
          exact Or.inl (hreach.mono (Nat.le_trans hlow hle))
        · exact Or.inr (Or.inl ⟨hdest, Nat.le_trans hlow hle⟩)
      · exact Or.inr (Or.inr ⟨task, hin, hcover⟩)
    | @found dist rest htodo =>
      rw [htodo] at hmem
      rcases List.mem_cons.mp hmem with rfl | hin
      · refine Or.inl (Or.inl (Nat.le_trans ?_ hcover))
        simp only
        split
        · exact le_refl _
        · next hlt => exact UInt32.le_iff_toNat_le.mp (UInt32.not_lt.mp hlt)
      · exact Or.inr (Or.inr ⟨task, hin, hcover⟩)
    | arrive htodo hstack hmin => simp [htodo] at hmem
    | prune htodo hstack hdest hmin => simp [htodo] at hmem
    | expand htodo hstack hdest hmin => simp [htodo] at hmem

/-- The destination is on the stack, or found, at its label as long as it may be compared. -/
theorem Complete.target_turned (hc : Complete E Start dest s) (hturn : Turned db p dest s s')
    {v : UInt32} (hv : Task.relax dest v ∈ s'.todo) : ReachedAt dest s' (s'.visit dest).toNat := by
  have hreach : Task.relax dest v ∈ s.todo → ReachedAt dest s' (s.visit dest).toNat :=
    fun hmem => (hc.target v hmem).turned hturn
  cases hturn with
  | @push task uid dist rest htodo hroom hpush =>
    rcases eq_or_ne dest uid with rfl | hne
    · exact Or.inr ⟨dist, List.mem_cons_self, by simp⟩
    · simp only [Function.update_of_ne hne]
      exact hreach (mem_todo_of_cons htodo _ hv)
  | skip htodo hvisit => exact hreach (mem_todo_of_cons htodo _ hv)
  | @found dist rest htodo =>
    by_cases hlt : dist < s.visit dest
    · refine Or.inl ?_
      simp only [hlt, if_true, Function.update_self]
      split
      · exact le_refl _
      · next hmin => exact UInt32.le_iff_toNat_le.mp (UInt32.not_lt.mp hmin)
    · have h := hreach (mem_todo_of_cons htodo _ hv)
      simpa only [hlt, if_false] using h
  | arrive htodo hstack hmin => simp [htodo] at hv
  | prune htodo hstack hdest hmin => simp [htodo] at hv
  | expand htodo hstack hdest hmin => exact absurd rfl (relax_mem_linkTasks hv).1

/-- A user that is popped is looked at, or too far away. -/
theorem Complete.edge_turned (hp : SearchPaths db p E Start avoid)
    (hs : Sound E Start avoid dest s) (hc : Complete E Start dest s)
    (hturn : Turned db p dest s s') {a k : ℕ} (ha : a ≠ dest) (hedge : E a b k) :
    (a, s'.visit a) ∈ s'.stack ∨ s'.minCost.toNat ≤ (s'.visit a).toNat + 1 ∨
      Seen dest s' b ((s'.visit a).toNat + k) := by
  have hseen : Seen dest s b ((s.visit a).toNat + k) → Seen dest s' b ((s.visit a).toNat + k) :=
    fun h => h.turned hs hc hturn
  have hold := hc.edge a b k ha hedge
  cases hturn with
  | @push task uid dist rest htodo hroom hpush =>
    rcases eq_or_ne a uid with rfl | hne
    · exact Or.inl (by simp)
    · simp only [Function.update_of_ne hne]
      rcases hold with hin | hmin | h
      · exact Or.inl (List.mem_cons_of_mem _ hin)
      · exact Or.inr (Or.inl hmin)
      · exact Or.inr (Or.inr (hseen h))
  | skip htodo hvisit =>
    rcases hold with hin | hmin | h
    · exact Or.inl hin
    · exact Or.inr (Or.inl hmin)
    · exact Or.inr (Or.inr (hseen h))
  | @found dist rest htodo =>
    have hvisit : (if dist < s.visit dest then Function.update s.visit dest dist
        else s.visit) a = s.visit a := by
      split
      · rw [Function.update_of_ne ha]
      · rfl
    simp only [hvisit]
    rcases hold with hin | hmin | h
    · exact Or.inl hin
    · refine Or.inr (Or.inl (Nat.le_trans ?_ hmin))
      split
      · next hlt => exact Nat.le_of_lt (UInt32.lt_iff_toNat_lt.mp hlt)
      · exact le_refl _
    · exact Or.inr (Or.inr (hseen h))
  | @arrive d rest htodo hstack hmin =>
    simp only [Function.update_of_ne ha]
    rcases hold with hin | hle | h
    · rw [hstack] at hin
      rcases List.mem_cons.mp hin with heq | hin
      · exact absurd (Prod.mk.inj heq).1 ha
      · exact Or.inl hin
    · exact Or.inr (Or.inl (Nat.le_trans (Nat.le_of_lt (UInt32.lt_iff_toNat_lt.mp hmin)) hle))
    · exact Or.inr (Or.inr (hseen h))
  | @prune uid d rest htodo hstack hdest hmin =>
    rcases hold with hin | hle | h
    · rw [hstack] at hin
      rcases List.mem_cons.mp hin with heq | hin
      · obtain ⟨rfl, hd⟩ := Prod.mk.inj heq
        refine Or.inr (Or.inl (Nat.le_trans (UInt32.le_iff_toNat_le.mp hmin) ?_))
        rw [hd, UInt32.toNat_add]
        exact Nat.mod_le _ _
      · exact Or.inl hin
    · exact Or.inr (Or.inl hle)
    · exact Or.inr (Or.inr (hseen h))
  | @expand uid d rest htodo hstack hdest hmin =>
    rcases hold with hin | hle | h
    · rw [hstack] at hin
      rcases List.mem_cons.mp hin with heq | hin
      · obtain ⟨rfl, hd⟩ := Prod.mk.inj heq
        obtain ⟨-, set, hentry, rfl⟩ := hp.edge.mp hedge
        have hsum : (d + set.cost.get p).toNat ≤ (s.visit a).toNat + (set.cost.get p).toNat := by
          rw [hd, UInt32.toNat_add]
          exact Nat.mod_le _ _
        refine Or.inr (Or.inr (Or.inr (Or.inr ?_)))
        have htask : Task.relax b (d + set.cost.get p) ∈ db.linkTasks p dest d a ∨
            Task.found (d + set.cost.get p) ∈ db.linkTasks p dest d a :=
          task_of_mem_entries hentry
        rcases htask with htask | htask
        · exact ⟨_, htask, rfl, hsum⟩
        · exact ⟨_, htask, hsum⟩
      · exact Or.inl hin
    · exact Or.inr (Or.inl hle)
    · exact Or.inr (Or.inr (hseen h))

theorem Complete.turned (hp : SearchPaths db p E Start avoid) (hs : Sound E Start avoid dest s)
    (hc : Complete E Start dest s) (hturn : Turned db p dest s s') : Complete E Start dest s' where
  start a c hstart := (hc.start a c hstart).turned hs hc hturn
  target _ hv := hc.target_turned hturn hv
  edge _ _ _ ha hedge := hc.edge_turned hp hs hturn ha hedge

theorem turn_done {cost : UInt32} (h : db.turn p dest s = .done cost) :
    s.todo = [] ∧ s.stack = [] ∧ cost = s.minCost := by
  obtain ⟨stack, visit, minCost, todo⟩ := s
  unfold turn at h
  cases todo with
  | cons task rest =>
    cases task with
    | push uid dist =>
      simp only [pushStack] at h
      split at h <;> cases h
    | relax uid dist =>
      simp only [pushStack] at h
      split at h
      · split at h <;> cases h
      · cases h
    | found dist => cases h
  | nil =>
    cases stack with
    | nil =>
      cases h
      exact ⟨rfl, rfl, rfl⟩
    | cons top rest =>
      simp only at h
      split at h
      · cases h
      · split at h <;> cases h

theorem Seen.at_end (hstack : s.stack = []) (htodo : s.todo = []) (h : Seen dest s b c) :
    s.minCost.toNat ≤ c ∨ (b ≠ dest ∧ (s.visit b).toNat ≤ c) := by
  rcases h with (h | ⟨d, hmem, -⟩) | h | ⟨task, hmem, -⟩
  · exact Or.inl h
  · simp [hstack] at hmem
  · exact Or.inr h
  · simp [htodo] at hmem

theorem Complete.closed (hstack : s.stack = []) (htodo : s.todo = [])
    (h : Complete E Start dest s) :
    Closed E Start (fun uid => (s.visit uid).toNat) dest s.minCost.toNat := by
  refine ⟨fun a c hstart => (h.start a c hstart).at_end hstack htodo, ?_⟩
  intro a b k ha hedge
  rcases h.edge a b k ha hedge with hin | hle | hseen
  · simp [hstack] at hin
  · exact Or.inl hle
  · exact Or.inr (hseen.at_end hstack htodo)

theorem SearchPaths.trail_lt (hp : SearchPaths db p E Start avoid) {vs : List ℕ} {v : ℕ}
    (h : Trail E Start (fun _ => 0) vs v c) : c < 2 ^ 32 := by
  cases h with
  | start hstart _ => exact hp.start_lt hstart
  | step htrail hedge _ _ => exact hp.fits htrail hedge

/-- At the end `min_cost` is the least cost. -/
theorem best_of_done (hp : SearchPaths db p E Start avoid) (hs : Sound E Start avoid dest s)
    (hc : Complete E Start dest s) {cost : UInt32} (h : db.turn p dest s = .done cost) :
    Best E Start dest cost := by
  obtain ⟨htodo, hstack, rfl⟩ := turn_done h
  have hle : ∀ c', Arrives E Start dest c' → s.minCost.toNat ≤ c' :=
    fun c' harr => harr.target_le hp.pos (hc.closed hstack htodo)
  rcases hs.best with hmax | harr
  · by_cases hex : ∃ c', Arrives E Start dest c'
    · -- a path of the cost `COST_MAXIMUM` is the cheapest
      obtain ⟨c', harr⟩ := hex
      obtain ⟨vs, c'', htrail, -⟩ := harr.trail
      have hlt := hp.trail_lt htrail
      have hge := hle c'' htrail.arrives
      have hmaxNat : s.minCost.toNat = 2 ^ 32 - 1 := by
        rw [hmax]
        decide
      have heq : s.minCost.toNat = c'' := by omega
      refine Or.inl ⟨?_, hle⟩
      rw [heq]
      exact htrail.arrives
    · exact Or.inr ⟨not_exists.mp hex, hmax⟩
  · exact Or.inl ⟨harr, hle⟩

/-- **A search that ends with a cost ends with the least one.** -/
theorem searchCost_best (hp : SearchPaths db p E Start avoid) (fuel : ℕ)
    (hs : Sound E Start avoid dest s) (hc : Complete E Start dest s) {cost : UInt32}
    (h : db.searchCost p dest fuel s = some (.cost cost)) : Best E Start dest cost := by
  induction fuel generalizing s with
  | zero => cases h
  | succ fuel ih =>
    rw [searchCost] at h
    cases hturn : db.turn p dest s with
    | overflow => simp [hturn] at h
    | done v =>
      rw [hturn] at h
      cases h
      exact best_of_done hp hs hc hturn
    | next s' =>
      rw [hturn] at h
      have hturned := UidDB.turned hturn
      exact ih (hs.turned hp hturned) (hc.turned hp hs hturned) h

end Complete

end UidDB

end Raims
