import Mathlib.Data.Multiset.Filter
import Mathlib.Data.Multiset.MapFold
import Raims.Graph.PrintGraph

/-!
# The graph that is loaded

The calls of `add_user` and `add_conn` that loading a text makes, done on a graph. Its users
are those that were named, each once, and its links are those of the connections, one each
way.
-/

namespace Raims

namespace PrintGraph

open LoadGraph (Conn GraphOp)

/-- `add_user` and `add_conn` by name; users that are named have the uid 0. -/
def applyOp (g : AdjGraph) : GraphOp → AdjGraph
  | .addUser user => (g.addUser (nameOf user) 0).1
  | .addConn c =>
    let r := g.addUser (nameOf c.a) 0
    let s := r.1.addUser (nameOf c.b) 0
    s.1.addConn r.2 s.2 (nameOf c.tport) (nameOf c.type) c.cost

def loadAdjGraph (pathLimit : ℕ) (p : Text) : AdjGraph :=
  (LoadGraph.loadGraph p).foldl applyOp (.empty pathLimit)

/-- The name of the user at an index. -/
def userAt (g : AdjGraph) (i : ℕ) : Option String := (g.userTab[i]?).map AdjUser.user

/-- The users by name. -/
def names (g : AdjGraph) : List String := g.userTab.map AdjUser.user

/-- The type, the name and the cost of a link. -/
abbrev LinkKind := String × String × AdjCost

def kindOf (l : AdjLink) : LinkKind := (l.type, l.tport, l.cost)

/-- The links from one user to another. -/
def linksOf (g : AdjGraph) (a b : String) : Multiset LinkKind :=
  (((allLinks g).filter fun l => userAt g l.a = some a ∧ userAt g l.b = some b).map kindOf : List _)

def connKind (c : Conn) : LinkKind := (nameOf c.type, nameOf c.tport, c.cost)

/-- The links from one user to another that connections make. -/
def connLinks (conns : List Conn) (a b : String) : Multiset LinkKind :=
  ((conns.filter fun c => nameOf c.a = a ∧ nameOf c.b = b).map connKind : List _) +
    ((conns.filter fun c => nameOf c.b = a ∧ nameOf c.a = b).map connKind : List _)

variable {g : AdjGraph} {a b user : String} {i j : ℕ} {l : AdjLink}

/-! ## Users -/

theorem userAt_eq_getElem? (g : AdjGraph) (i : ℕ) : userAt g i = (names g)[i]? := by
  rw [userAt, names, List.getElem?_map]

theorem userAt_eq_none_iff : userAt g i = none ↔ g.userTab.length ≤ i := by
  rw [userAt, Option.map_eq_none_iff, List.getElem?_eq_none_iff]

theorem lt_length_of_userAt (h : userAt g i = some user) : i < g.userTab.length := by
  by_contra hge
  rw [userAt_eq_none_iff.2 (Nat.le_of_not_lt hge)] at h
  exact nomatch h

theorem mem_names_of_userAt (h : userAt g i = some user) : user ∈ names g := by
  rw [userAt_eq_getElem?] at h
  exact List.mem_of_getElem? h

/-- A graph that is loaded: no name is there twice, and all users have the uid 0. -/
structure Loaded (g : AdjGraph) : Prop where
  wf : g.WF
  nodup : (names g).Nodup
  uid : ∀ u ∈ g.userTab, u.uid = 0

theorem Loaded.empty (pathLimit : ℕ) : Loaded (.empty pathLimit) where
  wf := (AdjGraph.Built.empty pathLimit).wf
  nodup := List.nodup_nil
  uid := List.forall_mem_nil _

/-- A user that is new is added at the end. -/
theorem Loaded.addUser_cases (h : Loaded g) (user : String) :
    (∃ i, userAt g i = some user ∧ g.addUser user 0 = (g, i)) ∨
      (user ∉ names g ∧ g.addUser user 0 =
        ({ g with userTab := g.userTab ++ [⟨user, 0, []⟩] }, g.userTab.length)) := by
  unfold AdjGraph.addUser
  cases hfind : g.find user 0 with
  | some i =>
    obtain ⟨hi, hp, -⟩ := List.findIdx?_eq_some_iff_getElem.1 hfind
    refine .inl ⟨i, ?_, rfl⟩
    rw [decide_eq_true_eq] at hp
    rw [userAt, List.getElem?_eq_getElem hi, Option.map_some, hp.1]
  | none =>
    refine .inr ⟨?_, rfl⟩
    intro hmem
    obtain ⟨u, hu, rfl⟩ := List.mem_map.1 hmem
    have hp := List.findIdx?_eq_none_iff.1 hfind u hu
    rw [decide_eq_false_iff_not] at hp
    exact hp ⟨rfl, h.uid u hu⟩

theorem allLinks_addUser (g : AdjGraph) (user : String) (uid : ℕ) :
    allLinks (g.addUser user uid).1 = allLinks g := by
  unfold AdjGraph.addUser
  split
  · rfl
  · rw [allLinks, List.flatMap_append]
    exact List.append_nil _

/-- What `add_user` does to the names. -/
theorem Loaded.addUser (h : Loaded g) (user : String) :
    Loaded (g.addUser user 0).1 ∧ userAt (g.addUser user 0).1 (g.addUser user 0).2 = some user ∧
      (∀ i v, userAt g i = some v → userAt (g.addUser user 0).1 i = some v) ∧
      ∀ v, v ∈ names (g.addUser user 0).1 ↔ v ∈ names g ∨ v = user := by
  rcases h.addUser_cases user with ⟨i, hi, heq⟩ | ⟨hnew, heq⟩
  · rw [heq]
    refine ⟨h, hi, fun _ _ hv => hv, fun v => ⟨Or.inl, ?_⟩⟩
    rintro (hv | rfl)
    · exact hv
    · exact mem_names_of_userAt hi
  · rw [heq]
    have hnames : names { g with userTab := g.userTab ++ [⟨user, 0, []⟩] } = names g ++ [user] :=
      List.map_append
    refine ⟨⟨?_, ?_, ?_⟩, ?_, ?_, ?_⟩
    · have hwf := h.wf.addUser user 0
      rwa [heq] at hwf
    · rw [hnames]
      exact List.nodup_append'.2 ⟨h.nodup, List.nodup_singleton user,
        List.disjoint_singleton.2 hnew⟩
    · intro u hu
      rcases List.mem_append.1 hu with hu | hu
      · exact h.uid u hu
      · rw [List.mem_singleton.1 hu]
    · rw [userAt_eq_getElem?, hnames]
      have hlen : g.userTab.length = (names g).length := (List.length_map _).symm
      exact hlen ▸ List.getElem?_concat_length
    · intro i v hv
      rw [userAt_eq_getElem?] at hv
      obtain ⟨hi, -⟩ := List.getElem?_eq_some_iff.1 hv
      rw [userAt_eq_getElem?, hnames, List.getElem?_append_left hi, hv]
    · intro v
      rw [hnames, List.mem_append, List.mem_singleton]

/-! ## Links -/

theorem mem_allLinks (hl : l ∈ allLinks g) : ∃ i, l ∈ g.links i := by
  obtain ⟨u, hu, hl⟩ := List.mem_flatMap.1 hl
  obtain ⟨i, hi, rfl⟩ := List.mem_iff_getElem.1 hu
  refine ⟨i, ?_⟩
  rwa [AdjGraph.links, List.getElem?_eq_getElem hi]

theorem mem_allLinks_of_mem_links (hl : l ∈ g.links i) : l ∈ allLinks g := by
  have hi := AdjGraph.lt_length_of_mem_links hl
  rw [AdjGraph.links, List.getElem?_eq_getElem hi] at hl
  exact List.mem_flatMap.2 ⟨_, List.getElem_mem hi, hl⟩

/-- The two users of a link are in the graph. -/
theorem lt_length_of_mem_allLinks (hg : g.WF) (hl : l ∈ allLinks g) :
    l.a < g.userTab.length ∧ l.b < g.userTab.length := by
  obtain ⟨i, hi⟩ := mem_allLinks hl
  exact ⟨hg.source i l hi ▸ AdjGraph.lt_length_of_mem_links hi, hg.dest i l hi⟩

theorem flatMap_modify_perm {us : List AdjUser} (hi : i < us.length) (l : AdjLink) :
    ((us.modify i fun u => { u with links := u.links ++ [l] }).flatMap AdjUser.links).Perm
      (l :: us.flatMap AdjUser.links) := by
  induction us generalizing i with
  | nil => exact absurd hi (Nat.not_lt_zero i)
  | cons u us ih =>
    cases i with
    | zero =>
      rw [List.modify_zero_cons, List.flatMap_cons, List.flatMap_cons]
      show (u.links ++ [l] ++ us.flatMap AdjUser.links).Perm _
      rw [List.append_assoc]
      exact List.perm_middle
    | succ i =>
      rw [List.modify_succ_cons, List.flatMap_cons, List.flatMap_cons]
      exact ((ih (Nat.lt_of_succ_lt_succ hi)).append_left _).trans List.perm_middle

/-- Only the links of a user change. -/
theorem map_modify {β : Type*} {f : AdjUser → β} (hf : ∀ u ls, f { u with links := ls } = f u)
    (us : List AdjUser) (i : ℕ) (l : AdjLink) :
    (us.modify i fun u => { u with links := u.links ++ [l] }).map f = us.map f := by
  induction us generalizing i with
  | nil => cases i <;> rfl
  | cons u us ih =>
    cases i with
    | zero => rw [List.modify_zero_cons, List.map_cons, List.map_cons, hf]
    | succ i => rw [List.modify_succ_cons, List.map_cons, List.map_cons, ih]

theorem map_addConn {β : Type*} {f : AdjUser → β} (hf : ∀ u ls, f { u with links := ls } = f u)
    (g : AdjGraph) (i j : ℕ) (tport type : String) (cost : AdjCost) :
    (g.addConn i j tport type cost).userTab.map f = g.userTab.map f := by
  show (AdjGraph.addPathCount _ cost).userTab.map f = _
  rw [AdjGraph.userTab_addPathCount]
  exact (map_modify hf _ j _).trans (map_modify hf _ i _)

theorem names_addConn (g : AdjGraph) (i j : ℕ) (tport type : String) (cost : AdjCost) :
    names (g.addConn i j tport type cost) = names g :=
  map_addConn (fun _ _ => rfl) g i j tport type cost

/-- A connection is a link each way. -/
theorem allLinks_addConn (hi : i < g.userTab.length) (hj : j < g.userTab.length)
    (tport type : String) (cost : AdjCost) :
    ∃ l l', (l.a, l.b, kindOf l) = (i, j, type, tport, cost) ∧
      (l'.a, l'.b, kindOf l') = (j, i, type, tport, cost) ∧
      (allLinks (g.addConn i j tport type cost)).Perm (l' :: l :: allLinks g) := by
  let l : AdjLink := ⟨i, j, tport, type, cost, 0, g.linkCount, (g.links i).length⟩
  let l' : AdjLink := ⟨j, i, tport, type, cost, 0, g.linkCount + 1, (g.links j).length⟩
  refine ⟨l, l', rfl, rfl, ?_⟩
  have hall : allLinks (g.addConn i j tport type cost) =
      allLinks ((g.pushLink i l).pushLink j l') := by
    show (AdjGraph.addPathCount _ cost).userTab.flatMap AdjUser.links = _
    rw [AdjGraph.userTab_addPathCount]
    rfl
  rw [hall]
  have hfirst : (allLinks (g.pushLink i l)).Perm (l :: allLinks g) := flatMap_modify_perm hi l
  have hsecond := flatMap_modify_perm
    (show j < (g.pushLink i l).userTab.length by rw [AdjGraph.length_pushLink]; exact hj) l'
  exact hsecond.trans (hfirst.cons l')

/-- One more link is one more of its kind between its users. -/
theorem linksOf_of_perm {g' : AdjGraph} {ls : List AdjLink}
    (hall : (allLinks g').Perm (ls ++ allLinks g))
    (huser : ∀ l ∈ allLinks g, userAt g' l.a = userAt g l.a ∧ userAt g' l.b = userAt g l.b) :
    linksOf g' a b = ((ls.filter fun l => userAt g' l.a = some a ∧ userAt g' l.b = some b).map
      kindOf : List LinkKind) + linksOf g a b := by
  have hsame : (allLinks g).filter (fun l => userAt g' l.a = some a ∧ userAt g' l.b = some b) =
      (allLinks g).filter fun l => userAt g l.a = some a ∧ userAt g l.b = some b := by
    refine List.filter_congr fun l hl => ?_
    rw [(huser l hl).1, (huser l hl).2]
  rw [linksOf, linksOf, Multiset.coe_add, Multiset.coe_eq_coe, ← List.map_append, ← hsame,
    ← List.filter_append]
  exact (hall.filter _).map _

/-! ## Loading -/

theorem connLinks_append (cs ds : List Conn) (a b : String) :
    connLinks (cs ++ ds) a b = connLinks cs a b + connLinks ds a b := by
  simp only [connLinks, List.filter_append, List.map_append, ← Multiset.coe_add]
  exact add_add_add_comm _ _ _ _

/-- The users that an operation names. -/
def namesOf : GraphOp → List String
  | .addUser user => [nameOf user]
  | .addConn c => [nameOf c.a, nameOf c.b]

theorem linksOf_addUser (h : Loaded g) (user a b : String) :
    linksOf (g.addUser user 0).1 a b = linksOf g a b := by
  have hkeep := (h.addUser user).2.2.1
  have hall : (allLinks (g.addUser user 0).1).Perm ([] ++ allLinks g) :=
    .of_eq (allLinks_addUser g user 0)
  have hsame : ∀ i, i < g.userTab.length → userAt (g.addUser user 0).1 i = userAt g i := by
    intro i hi
    cases hv : userAt g i with
    | none => exact absurd hi (Nat.not_lt.2 (userAt_eq_none_iff.1 hv))
    | some v => exact hkeep i v hv
  refine (linksOf_of_perm hall fun l hl => ?_).trans (Multiset.zero_add _)
  have hlt := lt_length_of_mem_allLinks h.wf hl
  exact ⟨hsame l.a hlt.1, hsame l.b hlt.2⟩

theorem linksOf_addConn {c : Conn} (hi : userAt g i = some (nameOf c.a))
    (hj : userAt g j = some (nameOf c.b)) (a b : String) :
    linksOf (g.addConn i j (nameOf c.tport) (nameOf c.type) c.cost) a b =
      connLinks [c] a b + linksOf g a b := by
  obtain ⟨l, l', hl, hl', hall⟩ := allLinks_addConn (lt_length_of_userAt hi)
    (lt_length_of_userAt hj) (nameOf c.tport) (nameOf c.type) c.cost
  have huser : ∀ k, userAt (g.addConn i j (nameOf c.tport) (nameOf c.type) c.cost) k =
      userAt g k := by
    intro k
    rw [userAt_eq_getElem?, names_addConn, ← userAt_eq_getElem?]
  rw [linksOf_of_perm (show (allLinks _).Perm ([l', l] ++ allLinks g) from hall)
    fun _ _ => ⟨huser _, huser _⟩]
  simp only [Prod.mk.injEq] at hl hl'
  obtain ⟨hla, hlb, hlk⟩ := hl
  obtain ⟨hla', hlb', hlk'⟩ := hl'
  simp only [huser]
  congr 1
  have hkind : kindOf l = connKind c := hlk
  have hkind' : kindOf l' = connKind c := hlk'
  rw [connLinks, Multiset.coe_add, Multiset.coe_eq_coe]
  simp only [List.filter_cons, List.filter_nil, hla, hlb, hla', hlb', hi, hj, Option.some.injEq,
    decide_eq_true_eq]
  -- the link back is the last that is pushed
  by_cases hto : nameOf c.a = a ∧ nameOf c.b = b
  · by_cases hfrom : nameOf c.b = a ∧ nameOf c.a = b
    · rw [if_pos hto, if_pos hto, if_pos hfrom, if_pos hfrom]
      exact .of_eq (by rw [List.map_cons, List.map_cons, hkind, hkind']; rfl)
    · rw [if_pos hto, if_pos hto, if_neg hfrom, if_neg hfrom]
      exact .of_eq (by rw [List.map_cons, hkind]; rfl)
  · by_cases hfrom : nameOf c.b = a ∧ nameOf c.a = b
    · rw [if_neg hto, if_neg hto, if_pos hfrom, if_pos hfrom]
      exact .of_eq (by rw [List.map_cons, hkind']; rfl)
    · rw [if_neg hto, if_neg hto, if_neg hfrom, if_neg hfrom]
      exact .nil

/-- What one operation does to a graph that is loaded. -/
theorem Loaded.applyOp (h : Loaded g) (op : GraphOp) :
    Loaded (applyOp g op) ∧
      (∀ v, v ∈ names (PrintGraph.applyOp g op) ↔ v ∈ names g ∨ v ∈ namesOf op) ∧
      ∀ a b, linksOf (PrintGraph.applyOp g op) a b = connLinks op.conn?.toList a b +
        linksOf g a b := by
  cases op with
  | addUser user =>
    obtain ⟨hloaded, -, -, hnames⟩ := h.addUser (nameOf user)
    refine ⟨hloaded, fun v => ?_, fun a b => ?_⟩
    · rw [namesOf, List.mem_singleton]
      exact hnames v
    · refine (linksOf_addUser h (nameOf user) a b).trans ?_
      exact (Multiset.zero_add _).symm
  | addConn c =>
    obtain ⟨hr, hi, -, hrnames⟩ := h.addUser (nameOf c.a)
    obtain ⟨hs, hj, hkeep, hsnames⟩ := hr.addUser (nameOf c.b)
    have hi' := hkeep _ _ hi
    refine ⟨⟨?_, ?_, ?_⟩, fun v => ?_, fun a b => ?_⟩
    · exact hs.wf.addConn (lt_length_of_userAt hi') (lt_length_of_userAt hj) _ _ _
    · show (names (AdjGraph.addConn _ _ _ _ _ _)).Nodup
      rw [names_addConn]
      exact hs.nodup
    · refine (List.forall_mem_map (f := AdjUser.uid) (P := (· = 0))).1 ?_
      show ∀ n ∈ (AdjGraph.addConn _ _ _ _ _ _).userTab.map AdjUser.uid, n = 0
      rw [map_addConn fun _ _ => rfl]
      exact List.forall_mem_map.2 hs.uid
    · show v ∈ names (AdjGraph.addConn _ _ _ _ _ _) ↔ _
      rw [names_addConn, hsnames, hrnames, namesOf, List.mem_cons, List.mem_singleton, or_assoc]
    · refine (linksOf_addConn hi' hj a b).trans ?_
      rw [linksOf_addUser hr, linksOf_addUser h]
      rfl

/-- What the operations of a text do, one after the other. -/
theorem Loaded.foldl_applyOp (h : Loaded g) (ops : List GraphOp) :
    Loaded (ops.foldl PrintGraph.applyOp g) ∧
      (∀ v, v ∈ names (ops.foldl PrintGraph.applyOp g) ↔
        v ∈ names g ∨ v ∈ ops.flatMap namesOf) ∧
      ∀ a b, linksOf (ops.foldl PrintGraph.applyOp g) a b =
        connLinks (ops.filterMap GraphOp.conn?) a b + linksOf g a b := by
  induction ops generalizing g with
  | nil =>
    refine ⟨h, fun v => ?_, fun a b => (Multiset.zero_add _).symm⟩
    rw [List.flatMap_nil, List.foldl_nil, or_iff_left (List.not_mem_nil)]
  | cons op ops ih =>
    obtain ⟨hone, hnames, hlinks⟩ := h.applyOp op
    obtain ⟨hrest, hrnames, hrlinks⟩ := ih hone
    refine ⟨hrest, fun v => ?_, fun a b => ?_⟩
    · rw [List.foldl_cons, hrnames, hnames, List.flatMap_cons, List.mem_append, or_assoc]
    · have hconns : (op :: ops).filterMap GraphOp.conn? =
          op.conn?.toList ++ ops.filterMap GraphOp.conn? := by
        cases op <;> rfl
      rw [List.foldl_cons, hrlinks, hlinks, hconns, connLinks_append, ← add_assoc]
      congr 1
      exact add_comm _ _

/-- The graph that a text describes. -/
theorem loadAdjGraph_spec (pathLimit : ℕ) (p : Text) :
    (names (loadAdjGraph pathLimit p)).Nodup ∧
      (∀ v, v ∈ names (loadAdjGraph pathLimit p) ↔
        v ∈ (LoadGraph.loadGraph p).flatMap namesOf) ∧
      ∀ a b, linksOf (loadAdjGraph pathLimit p) a b = connLinks (LoadGraph.connsOf p) a b := by
  obtain ⟨hloaded, hnames, hlinks⟩ :=
    (Loaded.empty pathLimit).foldl_applyOp (LoadGraph.loadGraph p)
  refine ⟨hloaded.nodup, fun v => ?_, fun a b => ?_⟩
  · have hempty : names (.empty pathLimit) = [] := rfl
    rw [loadAdjGraph, hnames, hempty, or_iff_right List.not_mem_nil]
  · exact (hlinks a b).trans (add_zero _)

end PrintGraph

end Raims
