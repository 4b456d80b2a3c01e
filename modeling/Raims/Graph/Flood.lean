import Raims.Graph.ShortestPath
import Raims.Lib.TreeFlood

/-!
# Flooding a message along the forwarding tree (`adjacency.cpp`)

Every node holds the same graph and forwards a message of source `s` on its own
links in the forwarding tree of `s`. `calc_path` (for the source itself) and
`calc_source_path` (for the others) are the local computations that select the
transports of these links.
-/

namespace Raims

open WeightedDigraph TreeFlood

/-! ## What a node selects -/

/-- `UidSrcPath`: where a node sends for one destination. -/
structure UidSrcPath where
  tport : ℕ
  srcUid : ℕ
  cost : UInt32
deriving DecidableEq, Repr

/-- `ForwardCache`: the selected transports and, from `calc_path`, the entry of
each destination uid. -/
structure ForwardCache where
  tports : Finset ℕ
  path : List (ℕ × UidSrcPath)

namespace AdjGraph

def uidOf (g : AdjGraph) (i : ℕ) : ℕ := ((g.userTab[i]?).map AdjUser.uid).getD 0

/-- `calc_path` at the node with index `me`. -/
def calcPath (H : AdjHash) (g : AdjGraph) (p : UInt16) (me : ℕ) : ForwardCache where
  tports := (((g.links me).zipIdx.filter fun lj =>
    (g.linkDest H p me lj.2).card ≠ 0).map fun lj => lj.1.tid).toFinset
  path := (g.forwardSet H p me).map fun e =>
    (g.uidOf e.link.b,
      ⟨(((g.links me)[e.src]?).map AdjLink.tid).getD 0, g.uidOf e.link.a, e.cost⟩)

/-- `calc_source_path` at the node with index `me`, for messages of `src`. The
test `a.uid == 0` of the source says that the link is this node's own. -/
def calcSourcePath (H : AdjHash) (g : AdjGraph) (p : UInt16) (me src : ℕ) :
    ForwardCache :=
  if src = me then g.calcPath H p me
  else
    { tports := (((g.forwardSet H p src).filter fun e => e.link.a = me).map
        fun e => e.link.tid).toFinset
      path := [] }

/-- The links of the tree of `src`. -/
def treeLinks (H : AdjHash) (g : AdjGraph) (p : UInt16) (src : ℕ) : List AdjLink :=
  (g.forwardSet H p src).map AdjFwd.link

/-- The links on which node `me` forwards a message of `src`. -/
def forwardLinks (H : AdjHash) (g : AdjGraph) (p : UInt16) (src me : ℕ) :
    List AdjLink :=
  (g.treeLinks H p src).filter fun l => l.a = me

end AdjGraph

/-! ## The selection is the projection of the tree -/

section

variable {g : AdjGraph} {u : ℕ} {fwd : List AdjFwd}

/-- A tree path starts with a link of the root. -/
theorem TreePath.head {v : ℕ} {path : List AdjLink} (h : TreePath fwd u v path)
    {l : AdjLink} {rest : List AdjLink} (heq : path = l :: rest) :
    ∃ e ∈ fwd, e.link = l ∧ l.a = u := by
  induction h generalizing l rest with
  | root => simp at heq
  | @step e path he hp ih =>
    cases path with
    | nil =>
      obtain ⟨rfl, -⟩ : e.link = l ∧ [] = rest := by simpa using heq
      refine ⟨e, he, rfl, ?_⟩
      generalize hw : e.link.a = w at hp
      generalize hn : ([] : List AdjLink) = q at hp
      cases hp with
      | root => rfl
      | step => simp at hn
    | cons l' path' =>
      obtain ⟨rfl, -⟩ : l' = l ∧ path' ++ [e.link] = rest := by simpa using heq
      exact ih rfl

/-- The path to the head of one of the root's own tree links is that link. -/
theorem FwdTree.path_of_root_link (h : FwdTree g u fwd) {e : AdjFwd} (he : e ∈ fwd)
    (ha : e.link.a = u) {l : AdjLink} {rest : List AdjLink}
    (hp : TreePath fwd u e.link.b (l :: rest)) : l = e.link := by
  generalize hb : e.link.b = b at hp
  generalize hq : l :: rest = q at hp
  cases hp with
  | root => simp at hq
  | @step e' path he' hp' =>
    obtain rfl : e = e' := List.inj_on_of_nodup_map h.nodup he he' hb
    -- no tree link leads to the root, so the path above it is empty
    have hnil : path = [] := by
      rw [ha] at hp'
      generalize hw : u = w at hp'
      cases hp' with
      | root => rfl
      | step he'' _ => exact absurd hw.symm (h.root _ he'')
    rw [hnil] at hq
    exact (List.cons.inj hq).1

/-- **What a node selects.** The transports of `calc_path` and
`calc_source_path` are those of the links the node has in the tree. -/
theorem mem_tports_calcSourcePath (hg : g.WF) (H : AdjHash) (p : UInt16)
    {me src : ℕ} (hs : src < g.userTab.length) (t : ℕ) :
    t ∈ (g.calcSourcePath H p me src).tports ↔
      ∃ l ∈ g.forwardLinks H p src me, l.tid = t := by
  have ht := fwdTree_forwardSet hg H p hs
  unfold AdjGraph.calcSourcePath
  split
  · next heq =>
      subst heq
      simp only [AdjGraph.calcPath, AdjGraph.linkDest, AdjGraph.forwardLinks,
        AdjGraph.treeLinks, List.mem_toFinset, List.mem_map, List.mem_filter,
        decide_eq_true_eq, Finset.card_ne_zero]
      constructor
      · rintro ⟨⟨l, j⟩, ⟨hlj, b, hb⟩, rfl⟩
        simp only [List.mem_toFinset, List.mem_map, List.mem_filter,
          decide_eq_true_eq] at hb
        obtain ⟨e, ⟨he, rfl⟩, -⟩ := hb
        obtain ⟨l', rest, hp, hl'⟩ := ht.src e he
        obtain ⟨e', he', rfl, ha⟩ := hp.head rfl
        rw [List.mem_zipIdx_iff_getElem?] at hlj
        obtain rfl : e'.link = l := by simpa [hl'] using hlj
        exact ⟨e'.link, ⟨⟨e', he', rfl⟩, ha⟩, rfl⟩
      · rintro ⟨l, ⟨⟨e, he, rfl⟩, ha⟩, rfl⟩
        obtain ⟨l', rest, hp, hl'⟩ := ht.src e he
        obtain rfl := ht.path_of_root_link he ha hp
        refine ⟨(e.link, e.src), ⟨?_, e.link.b, ?_⟩, rfl⟩
        · rw [List.mem_zipIdx_iff_getElem?]
          exact hl'
        · simp only [List.mem_toFinset, List.mem_map, List.mem_filter,
            decide_eq_true_eq]
          exact ⟨e, ⟨he, rfl⟩, rfl⟩
  · simp only [AdjGraph.forwardLinks, AdjGraph.treeLinks, List.mem_toFinset,
      List.mem_map, List.mem_filter, decide_eq_true_eq]
    constructor
    · rintro ⟨e, ⟨he, ha⟩, rfl⟩
      exact ⟨e.link, ⟨⟨e, he, rfl⟩, ha⟩, rfl⟩
    · rintro ⟨l, ⟨⟨e, he, rfl⟩, ha⟩, rfl⟩
      exact ⟨e, ⟨he, ha⟩, rfl⟩

end

/-! ## The flood -/

/-- The nets a flood of a message of `src` on path `p` goes through, with the
number of deliveries made. -/
abbrev AdjGraph.FloodRun (H : AdjHash) (g : AdjGraph) (p : UInt16) (src : ℕ) :
    ℕ → Net ℕ AdjLink → Prop :=
  Run AdjLink.b (g.forwardLinks H p src) src

theorem floodTree {g : AdjGraph} (hg : g.WF) (H : AdjHash) (p : UInt16) {src : ℕ}
    (hs : src < g.userTab.length) :
    Tree AdjLink.a AdjLink.b src (g.treeLinks H p src) := by
  have ht := fwdTree_forwardSet hg H p hs
  refine ⟨?_, ?_, ?_⟩
  · simpa [AdjGraph.treeLinks, Function.comp_def] using ht.nodup
  · intro l hl
    obtain ⟨e, he, rfl⟩ := List.mem_map.mp hl
    exact ht.root e he
  · intro pre l post heq
    obtain ⟨pre', rest, heq', rfl, hrest⟩ := List.map_eq_append_iff.mp heq
    obtain ⟨e, post', rfl, rfl, rfl⟩ := List.map_eq_cons_iff.mp hrest
    rcases ht.parent pre' e post' heq' with hu | ⟨e', he', hp⟩
    · exact Or.inl hu
    · exact Or.inr ⟨e'.link, List.mem_map_of_mem he', hp⟩

/-- **Exactly once.** The flood of any source ends after at most one delivery a
user; in every net it goes through nobody has two copies and the source has
none; every node forwards on the transports `calc_path` and `calc_source_path`
select; and when link costs are at least one and no sum wraps, every user
reachable from the source has its copy at the end, and nobody else. -/
theorem flood_exactly_once (H : AdjHash) {g : AdjGraph} (hg : g.Built) (p : UInt16)
    {src : ℕ} (hs : src < g.userTab.length) :
    (∀ n net, g.FloodRun H p src n net → n < g.userTab.length ∧
      (∀ v, net.recv.count v ≤ 1) ∧ net.recv.count src = 0) ∧
    (∀ me t, t ∈ (g.calcSourcePath H p me src).tports ↔
      ∃ l ∈ g.forwardLinks H p src me, l.tid = t) ∧
    (g.PosCost p → g.NoWrap p src → ∀ n net, g.FloodRun H p src n net →
      net.inflight = [] → ∀ v, net.recv.count v =
        open Classical in
        if v ≠ src ∧ Reaches (g.Edge p) src v then 1 else 0) := by
  have htree := floodTree hg.wf H p hs
  have hout : ∀ v, g.forwardLinks H p src v =
      (g.treeLinks H p src).filter fun l => l.a = v := fun _ => rfl
  refine ⟨fun n net hrun => ⟨?_, ?_, ?_⟩, ?_, ?_⟩
  · -- the root and the heads of the tree are different users of the graph
    have hlen := run_length_le htree hout hrun
    have hnd : (src :: (g.treeLinks H p src).map AdjLink.b).Nodup := by
      refine List.nodup_cons.mpr ⟨?_, htree.nodup⟩
      intro hin
      obtain ⟨l, hl, heq⟩ := List.mem_map.mp hin
      exact htree.ne_root l hl heq
    have hsub : (src :: (g.treeLinks H p src).map AdjLink.b) ⊆
        List.range g.userTab.length := by
      intro v hv
      rw [List.mem_range]
      rcases List.mem_cons.mp hv with rfl | hv
      · exact hs
      · obtain ⟨l, hl, rfl⟩ := List.mem_map.mp hv
        obtain ⟨e, he, rfl⟩ := List.mem_map.mp hl
        exact hg.wf.dest _ _ ((fwdTree_forwardSet hg.wf H p hs).link e he)
    have hcard := (hnd.subperm hsub).length_le
    rw [List.length_cons, List.length_map, List.length_range] at hcard
    omega
  · exact List.nodup_iff_count_le_one.mp (recv_nodup htree hout hrun)
  · exact List.count_eq_zero.mpr (root_not_mem_recv htree hout hrun)
  · exact fun me t => mem_tports_calcSourcePath hg.wf H p hs t
  · intro hpos hwrap n net hrun hdone v
    have hspt := shortestPathTree_of_wf H hg.wf hs hpos hwrap
    have hmem : v ∈ net.recv ↔ v ≠ src ∧ Reaches (g.Edge p) src v := by
      rw [mem_recv_of_done htree hout hrun hdone, ← hspt.spans]
      simp [AdjGraph.treeLinks]
    split
    · next hv =>
        exact List.count_eq_one_of_mem (recv_nodup htree hout hrun) (hmem.mpr hv)
    · next hv => exact List.count_eq_zero.mpr fun hin => hv (hmem.mp hin)

/-- `A` sends to `B` and `C`, and `B` passes the message on to `D`. -/
theorem flood_exactly_once_squareGraph :
    ∃ n net, squareGraph.FloodRun ⟨fun _ => 0, fun _ => 0⟩ 0 0 n net ∧ net.recv = [1, 2, 3] ∧
      net.inflight = [] ∧ net.recv.count 3 = 1 ∧ net.recv.count 0 = 0 := by
  let H : AdjHash := ⟨fun _ => 0, fun _ => 0⟩
  let ab : AdjLink := ⟨0, 1, "ab", "tcp", AdjCost.const 5, 0, 0, 0⟩
  let ac : AdjLink := ⟨0, 2, "ac", "tcp", AdjCost.const 5, 1, 2, 1⟩
  let bd : AdjLink := ⟨1, 3, "bd", "tcp", AdjCost.const 5, 1, 4, 1⟩
  have hrun : squareGraph.FloodRun H 0 0 3 ⟨[], [1, 2, 3]⟩ := by
    have hA : squareGraph.forwardLinks H 0 0 0 = [] ++ ab :: [ac] := by decide +kernel
    have hB : [] ++ [ac] ++ squareGraph.forwardLinks H 0 0 ab.b = [] ++ ac :: [bd] := by
      decide +kernel
    have hC : [] ++ [bd] ++ squareGraph.forwardLinks H 0 0 ac.b = [] ++ bd :: [] := by
      decide +kernel
    have hD : [] ++ [] ++ squareGraph.forwardLinks H 0 0 bd.b = [] := by decide +kernel
    have h0 : squareGraph.FloodRun H 0 0 0 ⟨squareGraph.forwardLinks H 0 0 0, []⟩ := .start
    have h1 := @Step.deliver _ _ AdjLink.b (squareGraph.forwardLinks H 0 0) [] ab [ac] []
    have h2 := @Step.deliver _ _ AdjLink.b (squareGraph.forwardLinks H 0 0) [] ac [bd] [1]
    have h3 := @Step.deliver _ _ AdjLink.b (squareGraph.forwardLinks H 0 0) [] bd [] [1, 2]
    rw [← hA, hB] at h1
    rw [hC] at h2
    rw [hD] at h3
    exact .step (.step (.step h0 h1) h2) h3
  have h := @flood_exactly_once H squareGraph squareGraph_built 0 0 (by decide)
  refine ⟨3, _, hrun, rfl, rfl, ?_, (h.1 3 _ hrun).2.2⟩
  rw [h.2.2 squareGraph_posCost (squareGraph_noWrap (by decide)) 3 _ hrun rfl 3, if_pos]
  exact ⟨by decide, squareGraph_reaches (by decide) (by decide)⟩

/-- `A` to `B` to `C`, with costs whose sum is `2^32`. -/
def halfGraph : AdjGraph :=
  let g := ((((AdjGraph.empty 8).addUser "A" 0).1.addUser "B" 1).1.addUser "C" 2).1
  (g.addLink 0 1 "ab" "tcp" (AdjCost.const 2147483648) 0).addLink 1 2 "bc" "tcp"
    (AdjCost.const 2147483648) 0

/-- A wrapped sum of zero reads as no link left: the search stops at `B`, and
`C`, which `A` reaches, never gets the message. -/
theorem flood_zero_sum :
    ¬ ∀ (H : AdjHash) (g : AdjGraph) (p : UInt16) (src : ℕ), g.Built →
      src < g.userTab.length → ∀ n net, g.FloodRun H p src n net →
      net.inflight = [] → ∀ v, v ≠ src → Reaches (g.Edge p) src v →
      net.recv.count v = 1 := by
  intro h
  let H : AdjHash := ⟨fun _ => 0, fun _ => 0⟩
  let ab : AdjLink := ⟨0, 1, "ab", "tcp", AdjCost.const 2147483648, 0, 0, 0⟩
  let bc : AdjLink := ⟨1, 2, "bc", "tcp", AdjCost.const 2147483648, 0, 1, 0⟩
  have hbuilt : halfGraph.Built :=
    .addLink _ _ _ _ (.addLink _ _ _ _ (.addUser _ _ (.addUser _ _ (.addUser _ _
      (.empty 8)))) (by decide) (by decide)) (by decide) (by decide)
  have hrun : halfGraph.FloodRun H 0 0 1 ⟨[], [1]⟩ := by
    have hA : halfGraph.forwardLinks H 0 0 0 = [] ++ ab :: [] := by decide
    have hB : [] ++ [] ++ halfGraph.forwardLinks H 0 0 ab.b = [] := by decide
    have h0 : halfGraph.FloodRun H 0 0 0 ⟨halfGraph.forwardLinks H 0 0 0, []⟩ := .start
    have h1 := @Step.deliver _ _ AdjLink.b (halfGraph.forwardLinks H 0 0) [] ab [] []
    rw [← hA, hB] at h1
    exact .step h0 h1
  have hC : Reaches (halfGraph.Edge 0) 0 2 :=
    ⟨_, .snoc (.snoc .nil ⟨ab, by decide, rfl, rfl⟩) ⟨bc, by decide, rfl, rfl⟩⟩
  exact absurd (h H halfGraph 0 0 hbuilt (by decide) 1 _ hrun rfl 2 (by decide) hC)
    (by decide)

end Raims
