import Raims.Lib.BitSpace
import Mathlib.Data.List.Basic

/-!
# The adjacency graph (`adj_graph.h`, `adj_graph.cpp`)

Users, their directed links and the link costs of each path. A link refers to
its two users by their index in `user_tab`, which is what `a.idx` and `b.idx`
read in the source. Costs, path numbers and link numbers keep the widths of the
source, so that sums wrap where the source's sums wrap.
-/

namespace Raims

/-! ## Link costs -/

structure AdjPath where
  num : UInt16
  count : UInt16
deriving DecidableEq, Repr

structure AdjCost where
  maxCost : UInt32
  minCost : UInt32
  path : AdjPath
deriving DecidableEq, Repr

namespace AdjCost

/-- `set( cost )`: the same cost on every path. -/
def const (c : UInt32) : AdjCost := ⟨c, c, ⟨0, 1⟩⟩

/-- `operator[]`: the cost on path `p`. -/
def get (c : AdjCost) (p : UInt16) : UInt32 :=
  if p % c.path.count = c.path.num then c.minCost else c.maxCost

end AdjCost

/-! ## The least common multiple of the path counts -/

/-- `LCM`: the values added and the multiple found last. -/
structure LCM where
  vals : List UInt32
  val : UInt32
deriving DecidableEq, Repr

namespace LCM

def empty : LCM := ⟨[], 0⟩

/-- The index of the first smallest value, scanning from `i` with the best one
so far at `j`. -/
def smallest : List UInt32 → ℕ → ℕ → UInt32 → ℕ
  | [], _, j, _ => j
  | t :: ts, i, j, best =>
    if t < best then smallest ts (i + 1) i t else smallest ts (i + 1) j best

/-- The `for (;;)` of `LCM::add`: step the smallest value by its own base value
until the first one is the smallest and equals the last. -/
def search (vals : List UInt32) : ℕ → List UInt32 → Option UInt32
  | 0, _ => none
  | fuel + 1, tmp =>
    let first := tmp.headD 0
    let j := smallest tmp.tail 1 0 first
    if j = 0 ∧ first = tmp.getLastD 0 then some first
    else search vals fuel (tmp.modify j (· + vals.getD j 0))

/-- `LCM::add`. The search has `2^32` rounds for each value, more than a
multiple below `2^32` needs; past them the source loops forever and `val` is
left as it was. -/
def add (l : LCM) (x : UInt32) : LCM :=
  if l.vals = [] then ⟨[x], x⟩
  else if x ≤ l.val ∧ l.val % x = 0 then l
  else
    let vals := l.vals ++ [x]
    ⟨vals, (search vals (vals.length * 2 ^ 32) vals).getD l.val⟩

end LCM

/-! ## Links, users and the graph -/

structure AdjLink where
  /-- `user_tab` index of the source of the link -/
  a : ℕ
  /-- `user_tab` index of the destination -/
  b : ℕ
  tport : String
  type : String
  cost : AdjCost
  /-- transport id at user `a` -/
  tid : ℕ
  /-- globally unique link number -/
  linkNum : ℕ
  /-- index in `a.links[]` -/
  idx : ℕ
deriving DecidableEq, Repr

/-- The forwarding sets and the `dest` maps that `compute_forward_set` stores in
a user are its result in this model, not fields. -/
structure AdjUser where
  user : String
  uid : ℕ
  links : List AdjLink
deriving DecidableEq, Repr

structure AdjGraph where
  userTab : List AdjUser
  lcm : LCM
  linkCount : ℕ
  pathCount : ℕ
  maxLinks : ℕ
  maxAlt : ℕ
  pathLimit : ℕ
deriving DecidableEq, Repr

namespace AdjGraph

def empty (pathLimit : ℕ) : AdjGraph := ⟨[], LCM.empty, 0, 1, 0, 0, pathLimit⟩

/-- The link list of the user at index `i`. -/
def links (g : AdjGraph) (i : ℕ) : List AdjLink :=
  ((g.userTab[i]?).map AdjUser.links).getD []

/-- `user_tab.find( user, uid )`: names are interned, so the hash lookup and the
scans for duplicate names come down to the entry with this name and uid. -/
def find (g : AdjGraph) (user : String) (uid : ℕ) : Option ℕ :=
  g.userTab.findIdx? fun u => u.user = user ∧ u.uid = uid

/-- `add_user`: the index of the user, added at the end if it is new. -/
def addUser (g : AdjGraph) (user : String) (uid : ℕ) : AdjGraph × ℕ :=
  match g.find user uid with
  | some i => (g, i)
  | none => ({ g with userTab := g.userTab ++ [⟨user, uid, []⟩] }, g.userTab.length)

/-- `u->links.push( l )` for the user at index `i`. -/
def pushLink (g : AdjGraph) (i : ℕ) (l : AdjLink) : AdjGraph :=
  { g with
    userTab := g.userTab.modify i fun u => { u with links := u.links ++ [l] }
    linkCount := g.linkCount + 1 }

/-- The path count after a link of this cost is added. -/
def addPathCount (g : AdjGraph) (cost : AdjCost) : AdjGraph :=
  if 1 < cost.path.count then
    let lcm := g.lcm.add cost.path.count.toUInt32
    { g with lcm := lcm, pathCount := lcm.val.toNat }
  else g

/-- `add_link`. -/
def addLink (g : AdjGraph) (u1 u2 : ℕ) (tp ty : String) (cost : AdjCost)
    (tid : ℕ) : AdjGraph :=
  (g.pushLink u1
    ⟨u1, u2, tp, ty, cost, tid, g.linkCount, (g.links u1).length⟩).addPathCount cost

/-- `add_conn`: a link each way. Both link indexes are read before either link
is pushed. -/
def addConn (g : AdjGraph) (u1 u2 : ℕ) (tp ty : String) (cost : AdjCost) :
    AdjGraph :=
  let count1 := (g.links u1).length
  let count2 := (g.links u2).length
  let g1 := g.pushLink u1 ⟨u1, u2, tp, ty, cost, 0, g.linkCount, count1⟩
  let g2 := g1.pushLink u2 ⟨u2, u1, tp, ty, cost, 0, g.linkCount + 1, count2⟩
  let g3 := g2.addPathCount cost
  { g3 with
    maxLinks :=
      if g3.maxLinks ≤ max count1 count2 then max count1 count2 + 1
      else g3.maxLinks }

/-- The graphs the class's own operations build. -/
inductive Built : AdjGraph → Prop
  | empty (pathLimit : ℕ) : Built (empty pathLimit)
  | addUser {g : AdjGraph} (user : String) (uid : ℕ) :
      Built g → Built (g.addUser user uid).1
  | addLink {g : AdjGraph} {u1 u2 : ℕ} (tp ty : String) (cost : AdjCost)
      (tid : ℕ) : Built g → u1 < g.userTab.length → u2 < g.userTab.length →
      Built (g.addLink u1 u2 tp ty cost tid)
  | addConn {g : AdjGraph} {u1 u2 : ℕ} (tp ty : String) (cost : AdjCost) :
      Built g → u1 < g.userTab.length → u2 < g.userTab.length →
      Built (g.addConn u1 u2 tp ty cost)

/-- Every link sits in the list of its source, points to a user of the graph
and, unless it is a loop, knows its own position. A connection of a user with
itself pushes two links with one index, hence the exception. -/
structure WF (g : AdjGraph) : Prop where
  source : ∀ i, ∀ l ∈ g.links i, l.a = i
  dest : ∀ i, ∀ l ∈ g.links i, l.b < g.userTab.length
  index : ∀ (i j : ℕ) (l : AdjLink), (g.links i)[j]? = some l → l.b ≠ l.a →
    l.idx = j

/-! ## The operations keep a graph well formed -/

theorem links_of_length_le {g : AdjGraph} {i : ℕ} (h : g.userTab.length ≤ i) :
    g.links i = [] := by
  simp [links, List.getElem?_eq_none h]

theorem lt_length_of_mem_links {g : AdjGraph} {i : ℕ} {l : AdjLink}
    (h : l ∈ g.links i) : i < g.userTab.length := by
  by_contra hi
  rw [links_of_length_le (Nat.le_of_not_lt hi)] at h
  simp at h

@[simp] theorem links_empty (n i : ℕ) : (empty n).links i = [] := by
  simp [links, empty]

@[simp] theorem length_pushLink (g : AdjGraph) (i : ℕ) (l : AdjLink) :
    (g.pushLink i l).userTab.length = g.userTab.length := by
  simp [pushLink]

theorem links_pushLink {g : AdjGraph} {u : ℕ} (hu : u < g.userTab.length)
    (l : AdjLink) (i : ℕ) :
    (g.pushLink u l).links i = if i = u then g.links u ++ [l] else g.links i := by
  by_cases hi : i = u
  · subst hi
    simp [links, pushLink, List.getElem?_eq_getElem hu]
  · simp [links, pushLink, hi, Ne.symm hi]

@[simp] theorem userTab_addPathCount (g : AdjGraph) (c : AdjCost) :
    (g.addPathCount c).userTab = g.userTab := by
  unfold addPathCount
  split <;> rfl

@[simp] theorem links_addPathCount (g : AdjGraph) (c : AdjCost) (i : ℕ) :
    (g.addPathCount c).links i = g.links i := by
  simp [links]

theorem WF.pushLink {g : AdjGraph} (h : g.WF) {u : ℕ} (hu : u < g.userTab.length)
    {l : AdjLink} (ha : l.a = u) (hb : l.b < g.userTab.length)
    (hi : l.b ≠ l.a → l.idx = (g.links u).length) : (g.pushLink u l).WF where
  source := by
    intro i l' hl'
    rw [links_pushLink hu] at hl'
    split at hl'
    · next hiu =>
        rcases List.mem_append.mp hl' with hl' | hl'
        · rw [hiu]
          exact h.source u l' hl'
        · rw [List.mem_singleton.mp hl', ha, hiu]
    · exact h.source i l' hl'
  dest := by
    intro i l' hl'
    rw [length_pushLink]
    rw [links_pushLink hu] at hl'
    split at hl'
    · rcases List.mem_append.mp hl' with hl' | hl'
      · exact h.dest u l' hl'
      · rwa [List.mem_singleton.mp hl']
    · exact h.dest i l' hl'
  index := by
    intro i j l' hl' hne
    rw [links_pushLink hu] at hl'
    split at hl'
    · rcases Nat.lt_or_ge j (g.links u).length with hj | hj
      · rw [List.getElem?_append_left hj] at hl'
        exact h.index u j l' hl' hne
      · rw [List.getElem?_append_right hj, List.getElem?_singleton] at hl'
        split at hl'
        · obtain rfl : l = l' := by simpa using hl'
          have hlen := hi hne
          omega
        · simp at hl'
    · exact h.index i j l' hl' hne

theorem WF.of_userTab {g g' : AdjGraph} (h : g.WF) (he : g'.userTab = g.userTab) :
    g'.WF := by
  have hl : g'.links = g.links := by
    funext i
    simp [links, he]
  exact ⟨by rw [hl]; exact h.source, by rw [hl, he]; exact h.dest,
    by rw [hl]; exact h.index⟩

theorem links_addUser (g : AdjGraph) (user : String) (uid i : ℕ) :
    (g.addUser user uid).1.links i = g.links i := by
  unfold addUser
  split
  · rfl
  · rcases Nat.lt_trichotomy i g.userTab.length with hi | rfl | hi
    · simp [links, List.getElem?_append_left hi]
    · simp [links]
    · rw [links_of_length_le (Nat.le_of_lt hi),
        links_of_length_le (by simp; omega)]

theorem length_addUser_ge (g : AdjGraph) (user : String) (uid : ℕ) :
    g.userTab.length ≤ (g.addUser user uid).1.userTab.length := by
  unfold addUser
  split <;> simp

theorem WF.addConn {g : AdjGraph} (h : g.WF) {u1 u2 : ℕ} (hu1 : u1 < g.userTab.length)
    (hu2 : u2 < g.userTab.length) (tp ty : String) (cost : AdjCost) :
    (g.addConn u1 u2 tp ty cost).WF := by
  have h1 := h.pushLink (l := ⟨u1, u2, tp, ty, cost, 0, g.linkCount,
    (g.links u1).length⟩) hu1 rfl hu2 fun _ => rfl
  refine WF.of_userTab (h1.pushLink (u := u2) (by simpa using hu2) rfl
    (by simpa using hu1) fun hne => ?_) (userTab_addPathCount _ _)
  rw [links_pushLink hu1, if_neg (Ne.symm hne)]

theorem WF.addUser {g : AdjGraph} (h : g.WF) (user : String) (uid : ℕ) :
    (g.addUser user uid).1.WF := by
  have hlen := length_addUser_ge g user uid
  refine ⟨?_, ?_, ?_⟩
  · simpa only [links_addUser] using h.source
  · intro i l hl
    rw [links_addUser] at hl
    exact Nat.lt_of_lt_of_le (h.dest i l hl) hlen
  · simpa only [links_addUser] using h.index

/-- Every graph the operations build is well formed. -/
theorem Built.wf {g : AdjGraph} (h : g.Built) : g.WF := by
  induction h with
  | empty n => exact ⟨by simp, by simp, by simp⟩
  | addUser user uid _ ih => exact ih.addUser user uid
  | addLink tp ty cost tid _ hu1 hu2 ih =>
    exact (ih.pushLink hu1 rfl hu2 fun _ => rfl).of_userTab
      (userTab_addPathCount _ _)
  | addConn tp ty cost _ hu1 hu2 ih => exact ih.addConn hu1 hu2 tp ty cost

end AdjGraph

end Raims
