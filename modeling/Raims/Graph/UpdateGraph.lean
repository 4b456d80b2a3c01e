import Raims.Graph.Forward
import Raims.LinkState.Adjacency
import Mathlib.Logic.Equiv.Basic
import Mathlib.Data.Finset.Image

/-!
# Building the graph from the link state database (`AdjDistance::update_graph`)

A node numbers itself 0 and its peers in the order it discovered them. The graph
lists the users from the oldest on, which no numbering changes; but the members
of an adjacency set become links in the order of their local uids, and the order
of the links decides between paths of equal cost. Two nodes with one database
build one graph exactly when the start times tell all users apart and every
adjacency set is enumerated in the same order of age by both
(`updateGraph_agree_iff`).
-/

namespace Raims

open scoped List

/-! ## The database -/

/-- What the graph takes from one user: its name, start time and adjacency
sets. -/
structure UserEntry where
  user : String
  start : ℕ
  adjacency : AdjacencyTab

/-- A node's link state database: itself and its authenticated peers, by local
uid. A bridge that is missing or not authenticated has no entry. -/
structure LinkDB where
  me : UserEntry
  peer : ℕ → Option UserEntry
  nextUid : ℕ
  peer_lt : ∀ uid, (peer uid).isSome → uid < nextUid

/-- The arguments of one `add_link` call. -/
structure LinkArgs where
  u1 : ℕ
  u2 : ℕ
  tport : String
  type : String
  cost : AdjCost
  tid : ℕ
deriving DecidableEq

def AdjGraph.addLinkCall (g : AdjGraph) (c : LinkArgs) : AdjGraph :=
  g.addLink c.u1 c.u2 c.tport c.type c.cost c.tid

namespace LinkDB

def entry (db : LinkDB) (uid : ℕ) : Option UserEntry :=
  if uid = 0 then some db.me else db.peer uid

/-- `UserBridgeList::add_users`. -/
def addUsers (db : LinkDB) : List ℕ :=
  0 :: (List.range db.nextUid).filter fun uid => uid ≠ 0 ∧ (db.peer uid).isSome

def startTime (db : LinkDB) (uid : ℕ) : ℕ := ((db.entry uid).map UserEntry.start).getD 0

def userName (db : LinkDB) (uid : ℕ) : String :=
  ((db.entry uid).map UserEntry.user).getD ""

def adjacencyOf (db : LinkDB) (uid : ℕ) : AdjacencyTab :=
  ((db.entry uid).map UserEntry.adjacency).getD AdjacencyTab.empty

/-- `list` may be what `sort<cmp_start>` leaves of the users. `cmp_start` calls
no two users equal, so users of one start time may end up in any order. -/
structure SortedUsers (db : LinkDB) (list : List ℕ) : Prop where
  perm : list.Perm db.addUsers
  sorted : list.Pairwise fun x y => db.startTime x ≤ db.startTime y

/-! ## The graph -/

/-- The first loop of `update_graph`: the graph with its users, and
`graph_idx_order`, which is zero for a uid that is not listed. -/
def addGraphUsers (db : LinkDB) (list : List ℕ) (pathLimit : ℕ) :
    AdjGraph × (ℕ → ℕ) :=
  list.foldl
    (fun s uid =>
      let u := s.1.addUser (db.userName uid) uid
      (u.1, Function.update s.2 uid u.2))
    (AdjGraph.empty pathLimit, fun _ => 0)

/-- The links of transport `t` of the user at index `i`: one for each member, in
uid order. -/
def tportLinks (idx : ℕ → ℕ) (i t : ℕ) (set : AdjacencySpace) : List LinkArgs :=
  (BitSpace.toList set.members).map fun b =>
    ⟨i, idx b, nameOf set.tport, nameOf set.tportType, set.cost, t⟩

/-- The links of one user, transport by transport. -/
def userLinks (db : LinkDB) (idx : ℕ → ℕ) (i uid : ℕ) : List LinkArgs :=
  (List.range (db.adjacencyOf uid).count).flatMap fun t =>
    match (db.adjacencyOf uid).ptr t with
    | none => []
    | some set => tportLinks idx i t set

/-- The `add_link` calls of `update_graph`, in order. -/
def linkCalls (db : LinkDB) (g : AdjGraph) (idx : ℕ → ℕ) : List LinkArgs :=
  g.userTab.zipIdx.flatMap fun ux => db.userLinks idx ux.2 ux.1.uid

/-- `update_graph`, after the sort left `list`. -/
def updateGraph (db : LinkDB) (list : List ℕ) (pathLimit : ℕ) : AdjGraph :=
  let s := db.addGraphUsers list pathLimit
  (db.linkCalls s.1 s.2).foldl AdjGraph.addLinkCall s.1

/-! ## One database under two numberings -/

/-- The position of a user by age, zero for a uid that is not listed. -/
def rank (db : LinkDB) (uid : ℕ) : ℕ :=
  if uid ∈ db.addUsers then
    (db.addUsers.filter fun x => db.startTime x < db.startTime uid).length
  else 0

def DistinctStart (db : LinkDB) : Prop :=
  ∀ x ∈ db.addUsers, ∀ y ∈ db.addUsers, db.startTime x = db.startTime y → x = y

instance (db : LinkDB) : Decidable db.DistinctStart :=
  inferInstanceAs (Decidable (∀ x ∈ db.addUsers, ∀ y ∈ db.addUsers,
    db.startTime x = db.startTime y → x = y))

end LinkDB

/-- The same adjacency set, its members renamed. -/
structure SameSet (σ : Equiv.Perm ℕ) (s₁ s₂ : AdjacencySpace) : Prop where
  members : s₂.members = s₁.members.map σ.toEmbedding
  tport : s₂.tport = s₁.tport
  tportType : s₂.tportType = s₁.tportType
  cost : s₂.cost = s₁.cost

structure SameEntry (σ : Equiv.Perm ℕ) (e₁ e₂ : UserEntry) : Prop where
  user : e₂.user = e₁.user
  start : e₂.start = e₁.start
  count : e₂.adjacency.count = e₁.adjacency.count
  ptr : ∀ t, Option.Rel (SameSet σ) (e₁.adjacency.ptr t) (e₂.adjacency.ptr t)

/-- The two nodes hold the same database; `σ` takes the uids of the first to
those of the second. -/
def SameDB (σ : Equiv.Perm ℕ) (db₁ db₂ : LinkDB) : Prop :=
  ∀ uid, Option.Rel (SameEntry σ) (db₁.entry uid) (db₂.entry (σ uid))

/-- Every adjacency set of a listed user is enumerated by both nodes in the same
order of age. -/
def SameMemberOrder (σ : Equiv.Perm ℕ) (db₁ db₂ : LinkDB) : Prop :=
  ∀ uid ∈ db₁.addUsers, ∀ t < (db₁.adjacencyOf uid).count, ∀ set,
    (db₁.adjacencyOf uid).ptr t = some set →
    (BitSpace.toList set.members).map db₁.rank =
      (BitSpace.toList (set.members.map σ.toEmbedding)).map db₂.rank

/-- The graph with its uids renamed. -/
def AdjGraph.rename (σ : Equiv.Perm ℕ) (g : AdjGraph) : AdjGraph :=
  { g with userTab := g.userTab.map fun u => { u with uid := σ u.uid } }

/-! ## Renaming commutes with the graph's operations -/

namespace AdjGraph

variable (σ : Equiv.Perm ℕ) (g : AdjGraph)

@[simp] theorem links_rename (i : ℕ) : (g.rename σ).links i = g.links i := by
  simp only [links, rename, List.getElem?_map, Option.map_map]
  rfl

@[simp] theorem length_rename : (g.rename σ).userTab.length = g.userTab.length := by
  simp [rename]

theorem uids_rename : (g.rename σ).userTab.map AdjUser.uid =
    (g.userTab.map AdjUser.uid).map σ := by
  simp [rename, Function.comp_def]

theorem pushLink_rename (i : ℕ) (l : AdjLink) :
    (g.rename σ).pushLink i l = (g.pushLink i l).rename σ := by
  have htab : (g.userTab.map fun u => { u with uid := σ u.uid }).modify i
      (fun u => { u with links := u.links ++ [l] }) =
      (g.userTab.modify i fun u => { u with links := u.links ++ [l] }).map
        fun u => { u with uid := σ u.uid } := by
    apply List.ext_getElem?
    intro j
    simp only [List.getElem?_modify, List.getElem?_map]
    cases g.userTab[j]? with
    | none => rfl
    | some u => by_cases hij : i = j <;> simp [hij]
  simp only [pushLink, rename, htab]

theorem addPathCount_rename (c : AdjCost) :
    (g.rename σ).addPathCount c = (g.addPathCount c).rename σ := by
  unfold addPathCount
  split <;> rfl

theorem addLinkCall_rename (c : LinkArgs) :
    (g.rename σ).addLinkCall c = (g.addLinkCall c).rename σ := by
  unfold addLinkCall addLink
  rw [links_rename, pushLink_rename, addPathCount_rename]
  rfl

/-- The forwarding sets read the link lists and the number of users only. -/
theorem forwardSet_congr {g g' : AdjGraph} (hl : g.links = g'.links)
    (hn : g.userTab.length = g'.userTab.length) (H : AdjHash) (p : UInt16) (i : ℕ) :
    g.forwardSet H p i = g'.forwardSet H p i := by
  have hmin : g.getMinCost p = g'.getMinCost p := by
    funext visit
    simp only [getMinCost, frontier, hl]
  have hloop : ∀ fuel s, forwardLoop H g p fuel s = forwardLoop H g' p fuel s := by
    intro fuel
    induction fuel with
    | zero => exact fun s => rfl
    | succ fuel ih =>
      intro s
      simp only [forwardLoop, hn, hmin, ih]
  simp only [forwardSet, forwardFrom, hloop, hn]

theorem forwardSet_rename (H : AdjHash) (p : UInt16) (i : ℕ) :
    (g.rename σ).forwardSet H p i = g.forwardSet H p i :=
  forwardSet_congr (funext (links_rename σ g)) (length_rename σ g) H p i

end AdjGraph

/-! ## What `update_graph` builds -/

namespace LinkDB

variable {db : LinkDB}

theorem mem_addUsers {uid : ℕ} : uid ∈ db.addUsers ↔ (db.entry uid).isSome := by
  by_cases h : uid = 0
  · simp [addUsers, entry, h]
  · have := db.peer_lt uid
    simp [addUsers, entry, h]
    grind

theorem nodup_addUsers (db : LinkDB) : db.addUsers.Nodup := by
  refine List.nodup_cons.mpr ⟨by simp, ?_⟩
  exact List.nodup_range.filter _

theorem SortedUsers.nodup {list : List ℕ} (h : db.SortedUsers list) : list.Nodup :=
  h.perm.nodup_iff.mpr (nodup_addUsers db)

/-- The index a uid gets: its position in the list. -/
def listIdx (list : List ℕ) (uid : ℕ) : ℕ := if uid ∈ list then list.idxOf uid else 0

/-- The users are distinct, so each is added at the end. -/
theorem addGraphUsers_eq (db : LinkDB) (pathLimit : ℕ) {list : List ℕ}
    (h : list.Nodup) :
    db.addGraphUsers list pathLimit =
      ({ AdjGraph.empty pathLimit with
          userTab := list.map fun uid => ⟨db.userName uid, uid, []⟩ },
        listIdx list) := by
  induction list using List.reverseRecOn with
  | nil => rfl
  | append_singleton list uid ih =>
    rw [List.nodup_append] at h
    have hnew : uid ∉ list := fun hin => h.2.2 uid hin uid (by simp) rfl
    have hfind : AdjGraph.find
        { AdjGraph.empty pathLimit with
          userTab := list.map fun uid => ⟨db.userName uid, uid, []⟩ }
        (db.userName uid) uid = none := by
      simp only [AdjGraph.find, List.findIdx?_eq_none_iff, List.mem_map]
      rintro u ⟨x, hx, rfl⟩
      have hne : x ≠ uid := fun hxu => hnew (hxu ▸ hx)
      simp [hne]
    have hstep : db.addGraphUsers (list ++ [uid]) pathLimit =
        let s := db.addGraphUsers list pathLimit
        let u := s.1.addUser (db.userName uid) uid
        (u.1, Function.update s.2 uid u.2) := by
      simp [addGraphUsers]
    rw [hstep, ih h.1]
    simp only [AdjGraph.addUser, hfind, List.map_append, List.map_singleton,
      List.length_map, Prod.mk.injEq, true_and]
    funext x
    by_cases hx : x = uid
    · subst hx
      simp [listIdx, List.idxOf_append, hnew]
    · by_cases hin : x ∈ list <;>
        simp [listIdx, List.idxOf_append, Function.update, hx, hin]

/-- The calls for a list of distinct users, user by user. -/
def callsOf (db : LinkDB) (list : List ℕ) : List LinkArgs :=
  list.zipIdx.flatMap fun ux => db.userLinks (listIdx list) ux.2 ux.1

theorem updateGraph_eq (db : LinkDB) (pathLimit : ℕ) {list : List ℕ}
    (h : list.Nodup) :
    db.updateGraph list pathLimit =
      (db.callsOf list).foldl AdjGraph.addLinkCall
        { AdjGraph.empty pathLimit with
          userTab := list.map fun uid => ⟨db.userName uid, uid, []⟩ } := by
  simp only [updateGraph, linkCalls, callsOf, addGraphUsers_eq db pathLimit h,
    List.zipIdx_map, List.flatMap_map]
  rfl

/-- The heads, transports and costs of the links of the user at index `i`, in order. -/
theorem heads_foldl_addLink (calls : List LinkArgs) {g : AdjGraph} {i : ℕ}
    (hi : i < g.userTab.length) :
    ((calls.foldl AdjGraph.addLinkCall g).links i).map (fun l => (l.b, l.tid, l.cost)) =
      (g.links i).map (fun l => (l.b, l.tid, l.cost)) ++
        (calls.filter fun c => c.u1 = i).map fun c => (c.u2, c.tid, c.cost) := by
  induction calls generalizing g with
  | nil => simp
  | cons c calls ih =>
    have hlen : (g.addLinkCall c).userTab.length =
        g.userTab.length := by
      simp [AdjGraph.addLinkCall, AdjGraph.addLink]
    rw [List.foldl_cons, ih (by rwa [hlen])]
    by_cases hc : c.u1 = i
    · subst hc
      simp [AdjGraph.addLinkCall, AdjGraph.addLink, AdjGraph.links_pushLink hi]
    · have hlinks : (g.addLinkCall c).links i =
          g.links i := by
        simp [AdjGraph.addLinkCall, AdjGraph.addLink, AdjGraph.links, AdjGraph.pushLink, hc]
      rw [hlinks, List.filter_cons_of_neg (by simpa using hc)]

theorem userTab_foldl_addLink_uid (calls : List LinkArgs) (g : AdjGraph) :
    (calls.foldl AdjGraph.addLinkCall g).userTab.map AdjUser.uid = g.userTab.map AdjUser.uid := by
  induction calls generalizing g with
  | nil => rfl
  | cons c calls ih =>
    rw [List.foldl_cons, ih]
    apply List.ext_getElem?
    intro j
    simp only [AdjGraph.addLinkCall, AdjGraph.addLink, AdjGraph.userTab_addPathCount, AdjGraph.pushLink,
      List.getElem?_map, List.getElem?_modify]
    cases g.userTab[j]? with
    | none => rfl
    | some u => by_cases hj : c.u1 = j <;> simp [hj]

/-- When the items made from `x` all carry the key of `x`, and the keys differ,
the items with one key are those made from one element. -/
theorem filter_flatMap_key {α β : Type*} {k : α → ℕ} {key : β → ℕ} {f : α → List β}
    (hk : ∀ x, ∀ c ∈ f x, key c = k x) {L : List α} (hL : (L.map k).Nodup) {x : α}
    (hx : x ∈ L) : ((L.flatMap f).filter fun c => key c = k x) = f x := by
  induction L with
  | nil => simp at hx
  | cons y L ih =>
    rw [List.map_cons, List.nodup_cons] at hL
    rw [List.flatMap_cons, List.filter_append]
    rcases List.mem_cons.mp hx with rfl | hx
    · have hself : ((f x).filter fun c => key c = k x) = f x :=
        List.filter_eq_self.mpr fun c hc => by simpa using hk x c hc
      have hrest : ((L.flatMap f).filter fun c => key c = k x) = [] := by
        refine List.filter_eq_nil_iff.mpr fun c hc => ?_
        obtain ⟨z, hz, hcz⟩ := List.mem_flatMap.mp hc
        intro hkey
        have hkz : k z = k x := by rw [← hk z c hcz]; simpa using hkey
        exact hL.1 (hkz ▸ List.mem_map_of_mem hz)
      rw [hself, hrest, List.append_nil]
    · have hne : k y ≠ k x := fun heq => hL.1 (heq ▸ List.mem_map_of_mem hx)
      have hself : ((f y).filter fun c => key c = k x) = [] :=
        List.filter_eq_nil_iff.mpr fun c hc => by simpa [hk y c hc] using hne
      rw [hself, ih hL.2 hx, List.nil_append]

theorem u1_of_mem_userLinks {idx : ℕ → ℕ} {i uid : ℕ} {c : LinkArgs}
    (hc : c ∈ db.userLinks idx i uid) : c.u1 = i := by
  obtain ⟨t, -, hc⟩ := List.mem_flatMap.mp hc
  split at hc
  · simp at hc
  · obtain ⟨b, -, rfl⟩ := List.mem_map.mp hc
    rfl

/-- The calls of one user are those made for its position. -/
theorem filter_callsOf {list : List ℕ} {i uid : ℕ} (h : list[i]? = some uid) :
    ((db.callsOf list).filter fun c => c.u1 = i) =
      db.userLinks (listIdx list) i uid := by
  have hmem : (uid, i) ∈ list.zipIdx := by
    rw [List.mem_zipIdx_iff_getElem?]
    exact h
  have hnd : (list.zipIdx.map Prod.snd).Nodup := by
    rw [List.zipIdx_map_snd]
    exact List.nodup_range'
  exact filter_flatMap_key (k := Prod.snd) (fun ux c hc => u1_of_mem_userLinks hc)
    hnd hmem

/-- The calls of one transport of a user. -/
theorem filter_userLinks {idx : ℕ → ℕ} {i uid t : ℕ} {set : AdjacencySpace}
    (ht : t < (db.adjacencyOf uid).count)
    (hset : (db.adjacencyOf uid).ptr t = some set) :
    ((db.userLinks idx i uid).filter fun c => c.tid = t) = tportLinks idx i t set := by
  have hkey : ∀ x, ∀ c ∈ (match (db.adjacencyOf uid).ptr x with
      | none => []
      | some set => tportLinks idx i x set), LinkArgs.tid c = id x := by
    intro x c hc
    split at hc
    · simp at hc
    · obtain ⟨b, -, rfl⟩ := List.mem_map.mp hc
      rfl
  have h := filter_flatMap_key hkey (L := List.range (db.adjacencyOf uid).count)
    (x := t) (by simpa using List.nodup_range) (by simpa using ht)
  simp only [hset] at h
  exact h

/-- With distinct start times the index of a user is its position by age. -/
theorem listIdx_eq_rank (hd : db.DistinctStart) {list : List ℕ}
    (h : db.SortedUsers list) : listIdx list = db.rank := by
  funext uid
  have hmem : uid ∈ list ↔ uid ∈ db.addUsers := h.perm.mem_iff
  by_cases hin : uid ∈ list
  · rw [listIdx, rank, if_pos hin, if_pos (hmem.mp hin),
      ← (h.perm.filter _).length_eq]
    have hinj : ∀ x ∈ list, db.startTime x = db.startTime uid → x = uid :=
      fun x hx => hd x (h.perm.mem_iff.mp hx) uid (hmem.mp hin)
    have hsorted := h.sorted
    clear hmem h
    -- everything before `uid` is older, and it is the first of the rest
    induction list with
    | nil => simp at hin
    | cons y list ih =>
      rw [List.pairwise_cons] at hsorted
      by_cases hy : y = uid
      · subst hy
        have hnone : (list.filter fun x => db.startTime x < db.startTime y) = [] := by
          refine List.filter_eq_nil_iff.mpr fun x hx => ?_
          simpa using hsorted.1 x hx
        simp [hnone]
      · have hin' : uid ∈ list := (List.mem_cons.mp hin).resolve_left (Ne.symm hy)
        have hlt : db.startTime y < db.startTime uid :=
          Nat.lt_of_le_of_ne (hsorted.1 uid hin') fun heq =>
            hy (hinj y (by simp) heq)
        rw [List.idxOf_cons_ne _ hy, ih hin'
          (fun x hx => hinj x (List.mem_cons_of_mem _ hx)) hsorted.2]
        simp [hlt]
  · rw [listIdx, rank, if_neg hin, if_neg fun h => hin (hmem.mpr h)]

end LinkDB

/-! ## The two nodes -/

namespace SameDB

variable {σ : Equiv.Perm ℕ} {db₁ db₂ : LinkDB}

theorem entry_cases (h : SameDB σ db₁ db₂) (uid : ℕ) :
    (db₁.entry uid = none ∧ db₂.entry (σ uid) = none) ∨
      ∃ e₁ e₂, db₁.entry uid = some e₁ ∧ db₂.entry (σ uid) = some e₂ ∧
        SameEntry σ e₁ e₂ := by
  have hrel := h uid
  revert hrel
  generalize db₁.entry uid = o₁, db₂.entry (σ uid) = o₂
  rintro (he | -)
  · exact Or.inr ⟨_, _, rfl, rfl, he⟩
  · exact Or.inl ⟨rfl, rfl⟩

theorem mem_iff (h : SameDB σ db₁ db₂) (uid : ℕ) :
    σ uid ∈ db₂.addUsers ↔ uid ∈ db₁.addUsers := by
  rw [LinkDB.mem_addUsers, LinkDB.mem_addUsers]
  rcases h.entry_cases uid with ⟨h₁, h₂⟩ | ⟨e₁, e₂, h₁, h₂, -⟩ <;> simp [h₁, h₂]

theorem startTime (h : SameDB σ db₁ db₂) (uid : ℕ) :
    db₂.startTime (σ uid) = db₁.startTime uid := by
  rcases h.entry_cases uid with ⟨h₁, h₂⟩ | ⟨e₁, e₂, h₁, h₂, he⟩
  · simp [LinkDB.startTime, h₁, h₂]
  · simp [LinkDB.startTime, h₁, h₂, he.start]

theorem userName (h : SameDB σ db₁ db₂) (uid : ℕ) :
    db₂.userName (σ uid) = db₁.userName uid := by
  rcases h.entry_cases uid with ⟨h₁, h₂⟩ | ⟨e₁, e₂, h₁, h₂, he⟩
  · simp [LinkDB.userName, h₁, h₂]
  · simp [LinkDB.userName, h₁, h₂, he.user]

theorem adjacencyOf (h : SameDB σ db₁ db₂) (uid : ℕ) :
    (db₂.adjacencyOf (σ uid)).count = (db₁.adjacencyOf uid).count ∧
      ∀ t, Option.Rel (SameSet σ) ((db₁.adjacencyOf uid).ptr t)
        ((db₂.adjacencyOf (σ uid)).ptr t) := by
  rcases h.entry_cases uid with ⟨h₁, h₂⟩ | ⟨e₁, e₂, h₁, h₂, he⟩
  · simp only [LinkDB.adjacencyOf, h₁, h₂]
    exact ⟨trivial, fun _ => .none⟩
  · simp only [LinkDB.adjacencyOf, h₁, h₂]
    exact ⟨he.count, he.ptr⟩

theorem perm_addUsers (h : SameDB σ db₁ db₂) :
    (db₁.addUsers.map σ).Perm db₂.addUsers := by
  refine (List.perm_ext_iff_of_nodup
    ((LinkDB.nodup_addUsers db₁).map σ.injective) (LinkDB.nodup_addUsers db₂)).mpr ?_
  intro uid
  obtain ⟨x, rfl⟩ := σ.surjective uid
  rw [h.mem_iff, List.mem_map_of_injective σ.injective]

theorem sortedUsers_map (h : SameDB σ db₁ db₂) {list : List ℕ}
    (hl : db₁.SortedUsers list) : db₂.SortedUsers (list.map σ) := by
  refine ⟨(hl.perm.map σ).trans h.perm_addUsers, ?_⟩
  rw [List.pairwise_map]
  simpa only [h.startTime] using hl.sorted

theorem distinctStart (h : SameDB σ db₁ db₂) (hd : db₁.DistinctStart) :
    db₂.DistinctStart := by
  intro x hx y hy heq
  obtain ⟨x, rfl⟩ := σ.surjective x
  obtain ⟨y, rfl⟩ := σ.surjective y
  rw [h.mem_iff] at hx hy
  rw [h.startTime, h.startTime] at heq
  rw [hd x hx y hy heq]

/-- With distinct start times there is one sorted list. -/
theorem sortedUsers_unique {db : LinkDB} (hd : db.DistinctStart) {l l' : List ℕ}
    (h : db.SortedUsers l) (h' : db.SortedUsers l') : l = l' := by
  refine (h.perm.trans h'.perm.symm).eq_of_pairwise ?_ h.sorted h'.sorted
  intro x y hx hy hxy hyx
  exact hd x (h.perm.mem_iff.mp hx) y (h'.perm.mem_iff.mp hy) (Nat.le_antisymm hxy hyx)

/-- One user's links, when the member orders agree. -/
theorem userLinks_eq (h : SameDB σ db₁ db₂) (ho : SameMemberOrder σ db₁ db₂)
    {uid : ℕ} (hu : uid ∈ db₁.addUsers) (i : ℕ) :
    db₂.userLinks db₂.rank i (σ uid) = db₁.userLinks db₁.rank i uid := by
  obtain ⟨hcount, hptr⟩ := h.adjacencyOf uid
  unfold LinkDB.userLinks
  rw [hcount]
  refine List.flatMap_congr fun t ht => ?_
  have hrel := hptr t
  have hord := ho uid hu t (List.mem_range.mp ht)
  revert hrel hord
  generalize (db₁.adjacencyOf uid).ptr t = o₁, (db₂.adjacencyOf (σ uid)).ptr t = o₂
  rintro (hs | -) hord
  · next s₁ s₂ =>
      have hm := congrArg
        (List.map fun b => (⟨i, b, nameOf s₁.tport, nameOf s₁.tportType, s₁.cost, t⟩ : LinkArgs))
        (hord s₁ rfl)
      rw [List.map_map, List.map_map, ← hs.members] at hm
      simp only [LinkDB.tportLinks, hs.tport, hs.tportType, hs.cost]
      exact hm.symm
  · rfl

theorem updateGraph_rename (h : SameDB σ db₁ db₂) (hd : db₁.DistinctStart)
    (ho : SameMemberOrder σ db₁ db₂) (pathLimit : ℕ) {l₁ l₂ : List ℕ}
    (h₁ : db₁.SortedUsers l₁) (h₂ : db₂.SortedUsers l₂) :
    db₂.updateGraph l₂ pathLimit = (db₁.updateGraph l₁ pathLimit).rename σ := by
  have hd₂ := h.distinctStart hd
  have hl : l₂ = l₁.map σ := sortedUsers_unique hd₂ h₂ (h.sortedUsers_map h₁)
  have hcalls : db₂.callsOf l₂ = db₁.callsOf l₁ := by
    unfold LinkDB.callsOf
    rw [LinkDB.listIdx_eq_rank hd h₁, LinkDB.listIdx_eq_rank hd₂ h₂, hl,
      List.zipIdx_map, List.flatMap_map]
    refine List.flatMap_congr fun ux hux => ?_
    have hmem : ux.1 ∈ db₁.addUsers :=
      h₁.perm.mem_iff.mp (List.fst_mem_of_mem_zipIdx hux)
    exact h.userLinks_eq ho hmem ux.2
  have htab : ({ AdjGraph.empty pathLimit with
        userTab := l₂.map fun uid => ⟨db₂.userName uid, uid, []⟩ } : AdjGraph) =
      AdjGraph.rename σ { AdjGraph.empty pathLimit with
        userTab := l₁.map fun uid => ⟨db₁.userName uid, uid, []⟩ } := by
    simp [AdjGraph.rename, hl, Function.comp_def, h.userName]
  rw [LinkDB.updateGraph_eq db₂ pathLimit h₂.nodup,
    LinkDB.updateGraph_eq db₁ pathLimit h₁.nodup, hcalls, htab]
  exact List.foldl_hom (AdjGraph.rename σ) (AdjGraph.addLinkCall_rename σ)

end SameDB

namespace LinkDB

variable {db : LinkDB}

theorem uids_updateGraph (pathLimit : ℕ) {list : List ℕ} (h : list.Nodup) :
    (db.updateGraph list pathLimit).userTab.map AdjUser.uid = list := by
  rw [updateGraph_eq db pathLimit h, userTab_foldl_addLink_uid]
  simp [Function.comp_def]

/-- The links of one user, as heads, transports and costs: one for each `add_link` call
made for it. -/
theorem linkCosts_updateGraph (pathLimit : ℕ) {list : List ℕ} (h : list.Nodup)
    {i uid : ℕ} (hi : list[i]? = some uid) :
    ((db.updateGraph list pathLimit).links i).map (fun l => (l.b, l.tid, l.cost)) =
      (db.userLinks (listIdx list) i uid).map fun c => (c.u2, c.tid, c.cost) := by
  have hlt : i < list.length := (List.getElem?_eq_some_iff.mp hi).1
  have hnil : AdjGraph.links { AdjGraph.empty pathLimit with
      userTab := list.map fun uid => ⟨db.userName uid, uid, []⟩ } i = [] := by
    simp [AdjGraph.links, hi]
  rw [updateGraph_eq db pathLimit h, heads_foldl_addLink _ (by simpa using hlt),
    filter_callsOf hi, hnil, List.map_nil, List.nil_append]

theorem links_updateGraph (pathLimit : ℕ) {list : List ℕ} (h : list.Nodup)
    {i uid : ℕ} (hi : list[i]? = some uid) :
    ((db.updateGraph list pathLimit).links i).map (fun l => (l.b, l.tid)) =
      (db.userLinks (listIdx list) i uid).map fun c => (c.u2, c.tid) := by
  have hcosts := congrArg (List.map fun e => (e.1, e.2.1))
    (@linkCosts_updateGraph db pathLimit list h i uid hi)
  rwa [List.map_map, List.map_map] at hcosts

/-- The heads of the links of one transport: its members in uid order. -/
theorem heads_updateGraph (pathLimit : ℕ) {list : List ℕ} (h : list.Nodup)
    {i uid t : ℕ} (hi : list[i]? = some uid) (ht : t < (db.adjacencyOf uid).count)
    {set : AdjacencySpace} (hset : (db.adjacencyOf uid).ptr t = some set) :
    ((((db.updateGraph list pathLimit).links i).map fun l => (l.b, l.tid)).filter
        fun e => e.2 = t).map Prod.fst =
      (BitSpace.toList set.members).map (listIdx list) := by
  rw [links_updateGraph pathLimit h hi, List.filter_map, List.map_map]
  have hf := @filter_userLinks db (listIdx list) i uid t set ht hset
  simp only [Function.comp_def] at hf ⊢
  rw [hf, tportLinks, List.map_map]
  rfl

/-- Users of one start time can be listed either way round. -/
theorem SortedUsers.swap {list : List ℕ} (h : db.SortedUsers list) {x y : ℕ}
    (hx : x ∈ db.addUsers) (hy : y ∈ db.addUsers)
    (heq : db.startTime x = db.startTime y) :
    db.SortedUsers (list.map (Equiv.swap x y)) := by
  have hinv : ∀ z, db.startTime (Equiv.swap x y z) = db.startTime z := by
    intro z
    rcases eq_or_ne z x with rfl | hzx
    · rw [Equiv.swap_apply_left, heq]
    · rcases eq_or_ne z y with rfl | hzy
      · rw [Equiv.swap_apply_right, heq]
      · rw [Equiv.swap_apply_of_ne_of_ne hzx hzy]
  refine ⟨?_, ?_⟩
  · refine (List.perm_ext_iff_of_nodup (h.nodup.map (Equiv.swap x y).injective)
      (nodup_addUsers db)).mpr fun z => ?_
    obtain ⟨z, rfl⟩ := (Equiv.swap x y).surjective z
    rw [List.mem_map_of_injective (Equiv.swap x y).injective, h.perm.mem_iff]
    rcases eq_or_ne z x with rfl | hzx
    · simp [hx, hy]
    · rcases eq_or_ne z y with rfl | hzy
      · simp [hx, hy]
      · rw [Equiv.swap_apply_of_ne_of_ne hzx hzy]
  · rw [List.pairwise_map]
    simpa only [hinv] using h.sorted

theorem exists_sortedUsers (db : LinkDB) : ∃ list, db.SortedUsers list := by
  have : Std.Total fun x y => db.startTime x ≤ db.startTime y :=
    ⟨fun x y => Nat.le_total _ _⟩
  have : IsTrans ℕ fun x y => db.startTime x ≤ db.startTime y :=
    ⟨fun x y z => Nat.le_trans⟩
  exact ⟨db.addUsers.insertionSort fun x y => db.startTime x ≤ db.startTime y,
    List.perm_insertionSort _ _, List.pairwise_insertionSort _ _⟩

end LinkDB

/-- Both nodes' graphs are the same up to the renaming of uids, and so is every
forwarding tree, whatever order the sorts leave users of one start time in. -/
def GraphsAgree (σ : Equiv.Perm ℕ) (db₁ db₂ : LinkDB) (pathLimit : ℕ) : Prop :=
  ∀ l₁ l₂, db₁.SortedUsers l₁ → db₂.SortedUsers l₂ →
    db₂.updateGraph l₂ pathLimit = (db₁.updateGraph l₁ pathLimit).rename σ ∧
    ∀ H p src, (db₂.updateGraph l₂ pathLimit).forwardSet H p src =
      (db₁.updateGraph l₁ pathLimit).forwardSet H p src

/-- **Two nodes with one database build one graph** exactly when no two listed
users have one start time and both enumerate the members of every adjacency set
in the same order of age. -/
theorem updateGraph_agree_iff {σ : Equiv.Perm ℕ} {db₁ db₂ : LinkDB}
    (h : SameDB σ db₁ db₂) (pathLimit : ℕ) :
    GraphsAgree σ db₁ db₂ pathLimit ↔
      db₁.DistinctStart ∧ SameMemberOrder σ db₁ db₂ := by
  constructor
  · intro hagree
    obtain ⟨l₁, hs₁⟩ := LinkDB.exists_sortedUsers db₁
    obtain ⟨l₂, hs₂⟩ := LinkDB.exists_sortedUsers db₂
    have hd : db₁.DistinctStart := by
      -- listing the two the other way round gives another graph
      intro x hx y hy heq
      have hsw := hs₁.swap hx hy heq
      have hg := (hagree _ _ hs₁ hs₂).1.symm.trans (hagree _ _ hsw hs₂).1
      have hu := congrArg (fun g => g.userTab.map AdjUser.uid) hg
      simp only [AdjGraph.uids_rename, LinkDB.uids_updateGraph pathLimit hs₁.nodup,
        LinkDB.uids_updateGraph pathLimit hsw.nodup] at hu
      have hl := σ.injective.list_map hu
      have hfix := List.map_inj_left.mp (hl.symm.trans (List.map_id l₁).symm) x
        (hs₁.perm.mem_iff.mpr hx)
      rw [Equiv.swap_apply_left] at hfix
      exact hfix.symm
    refine ⟨hd, ?_⟩
    intro uid hu t ht set hset
    obtain ⟨i, hi⟩ := List.mem_iff_getElem?.mp (hs₁.perm.mem_iff.mpr hu)
    have hg := (hagree _ _ hs₁ hs₂).1
    have hl : l₂ = l₁.map σ :=
      SameDB.sortedUsers_unique (h.distinctStart hd) hs₂ (h.sortedUsers_map hs₁)
    obtain ⟨hcount, hptr⟩ := h.adjacencyOf uid
    obtain ⟨set₂, hset₂, hsame⟩ : ∃ set₂,
        (db₂.adjacencyOf (σ uid)).ptr t = some set₂ ∧ SameSet σ set set₂ := by
      have hrel := hptr t
      rw [hset] at hrel
      generalize (db₂.adjacencyOf (σ uid)).ptr t = o₂ at hrel
      cases hrel with
      | some hs => exact ⟨_, rfl, hs⟩
    have h₁ := LinkDB.heads_updateGraph pathLimit hs₁.nodup hi ht hset
    have h₂ := LinkDB.heads_updateGraph pathLimit hs₂.nodup
      (by rw [hl, List.getElem?_map, hi]; rfl) (by rwa [hcount]) hset₂
    rw [hg, AdjGraph.links_rename, h₁, hsame.members] at h₂
    rwa [LinkDB.listIdx_eq_rank hd hs₁,
      LinkDB.listIdx_eq_rank (h.distinctStart hd) hs₂] at h₂
  · rintro ⟨hd, ho⟩ l₁ l₂ h₁ h₂
    have hg := h.updateGraph_rename hd ho pathLimit h₁ h₂
    exact ⟨hg, fun H p src => by rw [hg, AdjGraph.forwardSet_rename]⟩

/-! ## Two multicast networks with three nodes on both -/

/-- A user on both networks, with the other two as members. -/
def meshEntry (user : String) (start : ℕ) (members : Finset ℕ) : UserEntry :=
  ⟨user, start, 2, fun t =>
    if t = 0 then some { AdjacencySpace.new with
      members := members, tport := text "net0", tportType := text "pgm" }
    else if t = 1 then some { AdjacencySpace.new with
      members := members, tport := text "net1", tportType := text "pgm" }
    else none⟩

/-- The database of the node whose peers are `p1` and `p2`, in that order. -/
def meshDB (me p1 p2 : UserEntry) : LinkDB where
  me := me
  peer uid := if uid = 1 then some p1 else if uid = 2 then some p2 else none
  nextUid := 3
  peer_lt := by
    intro uid h
    by_cases h1 : uid = 1
    · omega
    · by_cases h2 : uid = 2
      · omega
      · simp [h1, h2] at h

/-- `A`, which found `B` before `C`. -/
def meshA : LinkDB :=
  meshDB (meshEntry "A" 1 {1, 2}) (meshEntry "B" 2 {0, 2}) (meshEntry "C" 3 {0, 1})

/-- `C`, which found `A` before `B`. -/
def meshC : LinkDB :=
  meshDB (meshEntry "C" 3 {1, 2}) (meshEntry "A" 1 {0, 2}) (meshEntry "B" 2 {0, 1})

/-- The uids of `A` in the numbering of `C`. -/
def meshPerm : Equiv.Perm ℕ where
  toFun n := if n = 0 then 1 else if n = 1 then 2 else if n = 2 then 0 else n
  invFun n := if n = 1 then 0 else if n = 2 then 1 else if n = 0 then 2 else n
  left_inv n := by grind
  right_inv n := by grind

theorem sameEntry_mesh {user : String} {start : ℕ} {m₁ m₂ : Finset ℕ}
    {σ : Equiv.Perm ℕ} (hm : m₂ = m₁.map σ.toEmbedding) :
    SameEntry σ (meshEntry user start m₁) (meshEntry user start m₂) := by
  refine ⟨rfl, rfl, rfl, fun t => ?_⟩
  by_cases h0 : t = 0
  · subst h0
    exact .some ⟨hm, rfl, rfl, rfl⟩
  · by_cases h1 : t = 1
    · subst h1
      exact .some ⟨hm, rfl, rfl, rfl⟩
    · simp only [meshEntry, h0, h1, if_false]
      exact .none

theorem sameDB_mesh : SameDB meshPerm meshA meshC := by
  intro uid
  match uid with
  | 0 => exact .some (sameEntry_mesh (by decide))
  | 1 => exact .some (sameEntry_mesh (by decide))
  | 2 => exact .some (sameEntry_mesh (by decide))
  | n + 3 => exact .none

theorem updateGraph_agree_iff_mesh :
    SameDB meshPerm meshA meshC ∧
      ¬ GraphsAgree meshPerm meshA meshC 8 := by
  refine ⟨sameDB_mesh, ?_⟩
  rw [updateGraph_agree_iff sameDB_mesh 8]
  rintro ⟨-, ho⟩
  exact absurd (ho 0 (by decide) 0 (by decide) _ rfl) (by decide)

/-- A hash that prefers link 0 to link 2, but link 3 to link 1. -/
def meshHash : AdjHash :=
  ⟨fun _ => 0, fun n => if n = 0 then 1 else if n = 1 then 4 else if n = 2 then 2 else 3⟩

/-- `A` and `C` hold the same database and the start times differ, but `A` would
send its messages to `B` on the first network and `C` expects the second. -/
theorem forwardSet_depends_on_uids :
    ¬ ∀ (σ : Equiv.Perm ℕ) (db₁ db₂ : LinkDB), SameDB σ db₁ db₂ →
      db₁.DistinctStart → ∀ l₁ l₂ pathLimit, db₁.SortedUsers l₁ →
      db₂.SortedUsers l₂ → ∀ H p src,
      ((db₁.updateGraph l₁ pathLimit).forwardSet H p src).map
          (fun e => (e.link.a, e.link.b, e.link.tid)) ~
        ((db₂.updateGraph l₂ pathLimit).forwardSet H p src).map
          fun e => (e.link.a, e.link.b, e.link.tid) := by
  intro h
  have hperm := h meshPerm meshA meshC sameDB_mesh (by decide) [0, 1, 2] [1, 2, 0] 8
    ⟨by decide, by decide⟩ ⟨by decide, by decide⟩ meshHash 0 0
  exact absurd hperm (by decide)

end Raims
