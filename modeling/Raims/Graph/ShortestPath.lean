import Raims.Graph.ForwardTree
import Raims.Lib.WeightedDigraph
import Mathlib.Tactic.IntervalCases

/-!
# The forwarding set is a shortest path tree

With link costs of at least one and no wrapped sum among those the search
compares, the visited users are settled after every round, so the labels are the
distances from the root and the tree spans what the root reaches.
-/

namespace Raims

open WeightedDigraph

/-- The links of the graph as weighted edges on path `p`. -/
def AdjGraph.Edge (g : AdjGraph) (p : UInt16) (a b k : ℕ) : Prop :=
  ∃ l ∈ g.links a, l.b = b ∧ (l.cost.get p).toNat = k

/-- Every link costs at least one on path `p`. -/
def AdjGraph.PosCost (g : AdjGraph) (p : UInt16) : Prop :=
  ∀ i, ∀ l ∈ g.links i, 1 ≤ (l.cost.get p).toNat

/-- No sum wraps: the distance of a user and the cost of any of its links to a
farther user fit in 32 bits together. -/
def AdjGraph.NoWrap (g : AdjGraph) (p : UInt16) (u : ℕ) : Prop :=
  ∀ a d e l, IsDist (g.Edge p) u a d → l ∈ g.links a →
    IsDist (g.Edge p) u l.b e → d < e → d + (l.cost.get p).toNat < 2 ^ 32

/-- `fwd` spans exactly what `u` reaches, at the distances. -/
structure ShortestPathTree (g : AdjGraph) (p : UInt16) (u : ℕ)
    (fwd : List AdjFwd) : Prop extends FwdTree g u fwd where
  spans : ∀ v, (∃ e ∈ fwd, e.link.b = v) ↔ v ≠ u ∧ Reaches (g.Edge p) u v
  cost : ∀ e ∈ fwd, IsDist (g.Edge p) u e.link.b e.cost.toNat

section

variable {g : AdjGraph} {p : UInt16} {u : ℕ}

theorem AdjGraph.PosCost.edge (h : g.PosCost p) (a b k : ℕ) (he : g.Edge p a b k) :
    1 ≤ k := by
  obtain ⟨l, hl, -, rfl⟩ := he
  exact h a l hl

/-- The visited users are settled, at their labels. -/
def VisitSettled (g : AdjGraph) (p : UInt16) (u : ℕ) (visit : AdjVisit) : Prop :=
  Settled (g.Edge p) u {v | v ∈ visit.user} fun v => (visit.cost v).toNat

/-- A sum the search forms for a link that leaves the visited set is exact. -/
theorem toNat_frontier_cost (hwrap : g.NoWrap p u) {visit : AdjVisit}
    (h : VisitSettled g p u visit) {a : ℕ} {l : AdjLink} (ha : a ∈ visit.user)
    (hl : l ∈ g.links a) (hb : l.b ∉ visit.user) :
    (l.cost.get p + visit.cost a).toNat =
      (visit.cost a).toNat + (l.cost.get p).toNat := by
  have hda := h.exact a ha
  have hreach : Reaches (g.Edge p) u l.b := ⟨_, hda.1.snoc ⟨l, hl, rfl, rfl⟩⟩
  obtain ⟨e, he⟩ := reaches_iff_exists_isDist.mp hreach
  have hlt := hwrap a _ e l hda hl he (h.nearer a ha l.b hb e he.1)
  rw [UInt32.toNat_add, Nat.add_comm, Nat.mod_eq_of_lt hlt]

/-- The facts of one call of `get_min_cost` on a settled set. -/
structure LeastBorder (g : AdjGraph) (p : UInt16) (visit : AdjVisit)
    (m : MinCost) : Prop where
  pos : m.minCost ≠ 0
  least : ∀ a ∈ visit.user, ∀ b ∉ visit.user, ∀ k, g.Edge p a b k →
    m.minCost.toNat ≤ (visit.cost a).toNat + k
  heads : ∀ b, (∃ l ∈ m.links, l.b = b) ↔ b ∉ visit.user ∧
    ∃ a ∈ visit.user, ∃ k, g.Edge p a b k ∧
      (visit.cost a).toNat + k = m.minCost.toNat

theorem leastBorder_getMinCost (hpos : g.PosCost p) (hwrap : g.NoWrap p u)
    {visit : AdjVisit} (h : VisitSettled g p u visit)
    (hne : g.frontier p visit ≠ []) :
    LeastBorder g p visit (g.getMinCost p visit) := by
  have hcost : ∀ c l, (c, l) ∈ g.frontier p visit → ∃ a ∈ visit.user,
      l ∈ g.links a ∧ l.b ∉ visit.user ∧
      c.toNat = (visit.cost a).toNat + (l.cost.get p).toNat := by
    intro c l hcl
    obtain ⟨a, ha, hl, hb, rfl⟩ := AdjGraph.mem_frontier.mp hcl
    exact ⟨a, ha, hl, hb, toNat_frontier_cost hwrap h ha hl hb⟩
  have hbest : MinCost.Best (g.frontier p visit) (g.getMinCost p visit) := by
    refine MinCost.best (fun c l hcl hc => ?_) hne
    obtain ⟨a, -, hl, -, heq⟩ := hcost c l hcl
    have hl1 := hpos a l hl
    rw [hc, UInt32.toNat_zero] at heq
    omega
  refine ⟨hbest.pos, ?_, ?_⟩
  · rintro a ha b hb k ⟨l, hl, rfl, rfl⟩
    rw [← toNat_frontier_cost hwrap h ha hl hb]
    exact UInt32.le_iff_toNat_le.mp
      (hbest.le _ l (AdjGraph.mem_frontier.mpr ⟨a, ha, hl, hb, rfl⟩))
  · intro b
    constructor
    · rintro ⟨l, hl, rfl⟩
      obtain ⟨a, ha, hla, hb, heq⟩ := hcost _ l ((hbest.mem l).mp hl)
      exact ⟨hb, a, ha, _, ⟨l, hla, rfl, rfl⟩, heq.symm⟩
    · rintro ⟨hb, a, ha, k, ⟨l, hl, rfl, rfl⟩, heq⟩
      rw [← toNat_frontier_cost hwrap h ha hl hb] at heq
      refine ⟨l, (hbest.mem l).mpr ?_, rfl⟩
      rw [← UInt32.toNat_inj.mp heq]
      exact AdjGraph.mem_frontier.mpr ⟨a, ha, hl, hb, rfl⟩

theorem visitSettled_start (hpos : g.PosCost p) (u : ℕ) :
    VisitSettled g p u (FwdState.start u).visit := by
  have h := settled_singleton (s := u) (d := fun _ => 0) hpos.edge rfl
  simpa [VisitSettled, FwdState.start] using h

/-- A round settles the heads of the links it adds. -/
theorem visitSettled_round (hg : g.WF) (hpos : g.PosCost p) (hwrap : g.NoWrap p u)
    (H : AdjHash) {s : FwdState} (h : VisitSettled g p u s.visit)
    (hm : (g.getMinCost p s.visit).minCost ≠ 0) :
    VisitSettled g p u (s.round H p (g.getMinCost p s.visit)).visit := by
  have hne : g.frontier p s.visit ≠ [] := by
    intro hnil
    rw [MinCost.getMinCost_eq, hnil] at hm
    exact hm rfl
  have hmin := leastBorder_getMinCost hpos hwrap h hne
  set m := g.getMinCost p s.visit with hm_def
  obtain ⟨hu, hc⟩ := FwdState.visit_round H p s m
    fun l hl => (TreeInv.of_mem_links hg hl).2.2
  have hext := h.extend hpos.edge (m := m.minCost.toNat)
    (B := {b | ∃ l ∈ m.links, l.b = b}) hmin.least hmin.heads ?_
    (f := fun v => ((s.round H p m).visit.cost v).toNat) ?_ ?_
  · have hset : {v | v ∈ (s.round H p m).visit.user} =
        {v | v ∈ s.visit.user} ∪ {b | ∃ l ∈ m.links, l.b = b} := Set.ext hu
    unfold VisitSettled
    rw [hset]
    exact hext
  · obtain ⟨l, hl⟩ := List.exists_mem_of_ne_nil _
      fun hnil => hm ((MinCost.collected _).nonempty hnil)
    exact ⟨l.b, l, hl, rfl⟩
  · intro a ha
    have hnot : ¬ ∃ l ∈ m.links, l.b = a := fun hex => ((hmin.heads a).mp hex).1 ha
    simp only [hc, if_neg hnot]
  · intro b hb
    have hex : ∃ l ∈ m.links, l.b = b := hb
    simp only [hc, if_pos hex]

theorem visitSettled_forwardFrom (hg : g.WF) (hpos : g.PosCost p)
    (hwrap : g.NoWrap p u) (H : AdjHash) :
    VisitSettled g p u (g.forwardFrom H p u).visit :=
  forwardLoop_inv (P := fun s => VisitSettled g p u s.visit)
    (fun _ h hm => visitSettled_round hg hpos hwrap H h hm) _ _
    (visitSettled_start hpos u)

theorem reaches_lt (hg : g.WF) (hs : u < g.userTab.length) {v : ℕ}
    (h : Reaches (g.Edge p) u v) : v < g.userTab.length := by
  obtain ⟨c, hw⟩ := h
  cases hw with
  | nil => exact hs
  | snoc _ he =>
    obtain ⟨l, hl, rfl, -⟩ := he
    exact hg.dest _ l hl

/-- At either exit of the loop no link leaves the visited set. -/
theorem not_edge_of_searchDone (hg : g.WF) (hpos : g.PosCost p)
    (hwrap : g.NoWrap p u) {s : FwdState} (ht : TreeInv g u s)
    (hs : VisitSettled g p u s.visit) (hdone : SearchDone g p s) :
    ∀ a ∈ s.visit.user, ∀ b ∉ s.visit.user, ∀ k, ¬ g.Edge p a b k := by
  rintro a ha b hb k ⟨l, hl, rfl, -⟩
  rcases hdone with hcard | hzero
  · have hall : s.visit.user = Finset.range g.userTab.length :=
      Finset.eq_of_subset_of_card_le
        (fun v hv => Finset.mem_range.mpr (ht.bound v hv))
        (by rw [Finset.card_range, hcard])
    rw [hall, Finset.mem_range] at hb
    exact hb (hg.dest a l hl)
  · have hne : g.frontier p s.visit ≠ [] :=
      List.ne_nil_of_mem (AdjGraph.mem_frontier.mpr ⟨a, ha, hl, hb, rfl⟩)
    exact (leastBorder_getMinCost hpos hwrap hs hne).pos hzero

theorem shortestPathTree_of_wf (H : AdjHash) (hwf : g.WF)
    (hu : u < g.userTab.length) (hpos : g.PosCost p) (hwrap : g.NoWrap p u) :
    ShortestPathTree g p u (g.forwardSet H p u) := by
  have ht := treeInv_forwardFrom hwf H p hu
  have hs := visitSettled_forwardFrom hwf hpos hwrap H
  have hfin := not_edge_of_searchDone hwf hpos hwrap ht hs
    (searchDone_forwardFrom hwf H p hu)
  refine ⟨ht.tree, fun v => ?_, fun e he => ?_⟩
  · have hreach : v ∈ (g.forwardFrom H p u).visit.user ↔ Reaches (g.Edge p) u v :=
      hs.mem_iff_reaches hpos.edge hfin v
    rw [ht.visited] at hreach
    constructor
    · rintro ⟨e, he, rfl⟩
      exact ⟨ht.tree.root e he, hreach.mp (Or.inr ⟨e, he, rfl⟩)⟩
    · rintro ⟨hne, hr⟩
      exact (hreach.mpr hr).resolve_left hne
  · have hmem := (ht.visited e.link.b).mpr (Or.inr ⟨e, he, rfl⟩)
    rw [← (ht.label e he).1]
    exact hs.exact e.link.b hmem

/-- **The forwarding set is a shortest path tree.** For a graph built by the
class's operations, every path and every root: the set is a tree of graph links,
it spans exactly the users reachable from the root, the cost of an entry is the
least path cost of its user, and `src` is the root's link it goes through. -/
theorem forwardSet_shortestPathTree (H : AdjHash) (hg : g.Built)
    (hu : u < g.userTab.length) (hpos : g.PosCost p) (hwrap : g.NoWrap p u) :
    ShortestPathTree g p u (g.forwardSet H p u) :=
  shortestPathTree_of_wf H hg.wf hu hpos hwrap

end

/-! ## Two graphs -/

@[simp] theorem AdjCost.get_const (c : UInt32) (p : UInt16) :
    (AdjCost.const c).get p = c := by
  simp [AdjCost.get, AdjCost.const]

/-- `A` and `D` are connected over `B` and over `C`, at equal costs. -/
def squareGraph : AdjGraph :=
  let g := ((((AdjGraph.empty 8).addUser "A" 0).1.addUser "B" 1).1.addUser "C" 2).1
  let g := (g.addUser "D" 3).1
  let g := (g.addLink 0 1 "ab" "tcp" (AdjCost.const 5) 0).addLink 1 0 "ab" "tcp" (AdjCost.const 5) 0
  let g := (g.addLink 0 2 "ac" "tcp" (AdjCost.const 5) 1).addLink 2 0 "ac" "tcp" (AdjCost.const 5) 0
  let g := (g.addLink 1 3 "bd" "tcp" (AdjCost.const 5) 1).addLink 3 1 "bd" "tcp" (AdjCost.const 5) 0
  (g.addLink 2 3 "cd" "tcp" (AdjCost.const 5) 1).addLink 3 2 "cd" "tcp" (AdjCost.const 5) 1

theorem squareGraph_built : squareGraph.Built := by
  refine .addLink _ _ _ _ (.addLink _ _ _ _ (.addLink _ _ _ _ (.addLink _ _ _ _ (.addLink _ _ _ _
    (.addLink _ _ _ _ (.addLink _ _ _ _ (.addLink _ _ _ _ ?_ ?_ ?_) ?_ ?_) ?_ ?_) ?_ ?_) ?_ ?_)
    ?_ ?_) ?_ ?_) ?_ ?_
  · exact .addUser _ _ (.addUser _ _ (.addUser _ _ (.addUser _ _ (.empty 8))))
  all_goals decide

theorem squareGraph_cost {a : ℕ} {l : AdjLink} (hl : l ∈ squareGraph.links a) :
    l.cost = AdjCost.const 5 := by
  have ha : a < 4 := AdjGraph.lt_length_of_mem_links hl
  revert l
  interval_cases a <;> decide

theorem squareGraph_edge {a : ℕ} {l : AdjLink} (hl : l ∈ squareGraph.links a) :
    squareGraph.Edge 0 a l.b 5 :=
  ⟨l, hl, rfl, by rw [squareGraph_cost hl]; decide⟩

/-- Two links are enough to get anywhere. -/
theorem squareGraph_walk {x a : ℕ} (hx : x < 4) (ha : a < 4) :
    ∃ c ≤ 10, Walk (squareGraph.Edge 0) x a c := by
  have hhop : a = x ∨ (∃ l ∈ squareGraph.links x, l.b = a) ∨
      ∃ l ∈ squareGraph.links x, ∃ l' ∈ squareGraph.links l.b, l'.b = a := by
    interval_cases x <;> interval_cases a <;> decide
  rcases hhop with rfl | ⟨l, hl, rfl⟩ | ⟨l, hl, l', hl', rfl⟩
  · exact ⟨0, by decide, .nil⟩
  · exact ⟨5, by decide, Walk.nil.snoc (squareGraph_edge hl)⟩
  · exact ⟨10, by decide, (Walk.nil.snoc (squareGraph_edge hl)).snoc (squareGraph_edge hl')⟩

theorem squareGraph_reaches {x a : ℕ} (hx : x < 4) (ha : a < 4) :
    Reaches (squareGraph.Edge 0) x a := by
  obtain ⟨c, -, hw⟩ := squareGraph_walk hx ha
  exact ⟨c, hw⟩

theorem squareGraph_posCost : squareGraph.PosCost 0 := by
  intro i l hl
  rw [squareGraph_cost hl]
  decide

theorem squareGraph_noWrap {x : ℕ} (hx : x < 4) : squareGraph.NoWrap 0 x := by
  intro a d _ l hd hl _ _
  obtain ⟨c, hc, hw⟩ := squareGraph_walk hx (AdjGraph.lt_length_of_mem_links hl)
  have hle := hd.2 c hw
  rw [squareGraph_cost hl, show ((AdjCost.const 5).get 0).toNat = 5 by decide]
  omega

/-- `A` reaches `D` over `B`. -/
theorem forwardSet_shortestPathTree_squareGraph :
    ShortestPathTree squareGraph 0 0
      (squareGraph.forwardSet ⟨fun _ => 0, fun _ => 0⟩ 0 0) :=
  forwardSet_shortestPathTree _ squareGraph_built (by decide) squareGraph_posCost
    (squareGraph_noWrap (by decide))

/-- `A` reaches `C` directly at cost 10, and through `B` at a cost past `2^32`. -/
def wrapGraph : AdjGraph :=
  let g := ((((AdjGraph.empty 8).addUser "A" 0).1.addUser "B" 1).1.addUser "C" 2).1
  ((g.addLink 0 1 "ab" "tcp" (AdjCost.const 5) 0).addLink 0 2 "ac" "tcp"
    (AdjCost.const 10) 1).addLink 1 2 "bc" "tcp" (AdjCost.const 4294967293) 0

theorem wrapGraph_built : wrapGraph.Built :=
  .addLink _ _ _ _ (.addLink _ _ _ _ (.addLink _ _ _ _ (.addUser _ _ (.addUser _ _
    (.addUser _ _ (.empty 8)))) (by decide) (by decide)) (by decide) (by decide))
    (by decide) (by decide)

theorem wrapGraph_links {a : ℕ} {l : AdjLink} (hl : l ∈ wrapGraph.links a) :
    (l.b = 1 ∨ l.b = 2) ∧ l.cost = AdjCost.const l.cost.minCost ∧
      5 ≤ l.cost.minCost.toNat := by
  have ha : a < 3 := AdjGraph.lt_length_of_mem_links hl
  revert l
  interval_cases a <;> decide

theorem wrapGraph_edge {p : UInt16} {a b k : ℕ} (he : wrapGraph.Edge p a b k) :
    (b = 1 ∨ b = 2) ∧ 5 ≤ k := by
  obtain ⟨l, hl, rfl, rfl⟩ := he
  obtain ⟨hb, hc, h5⟩ := wrapGraph_links hl
  rw [hc, AdjCost.get_const]
  exact ⟨hb, h5⟩

/-- The distances in `wrapGraph` are 0, 5 and 10. -/
theorem wrapGraph_dist {p : UInt16} {v d : ℕ} (hd : IsDist (wrapGraph.Edge p) 0 v d) :
    d < 2 ^ 32 := by
  have h1 : Walk (wrapGraph.Edge p) 0 1 (0 + 5) :=
    .snoc .nil ⟨⟨0, 1, "ab", "tcp", AdjCost.const 5, 0, 0, 0⟩, by decide, rfl, by simp⟩
  have h2 : Walk (wrapGraph.Edge p) 0 2 (0 + 10) :=
    .snoc .nil ⟨⟨0, 2, "ac", "tcp", AdjCost.const 10, 1, 1, 1⟩, by decide, rfl, by simp⟩
  have hv : v = 0 ∨ v = 1 ∨ v = 2 := by
    cases hd.1 with
    | nil => exact Or.inl rfl
    | snoc _ he => exact Or.inr (wrapGraph_edge he).1
  have hle : d ≤ 10 := by
    rcases hv with rfl | rfl | rfl
    · exact (hd.2 0 .nil).trans (by omega)
    · exact (hd.2 _ h1).trans (by omega)
    · exact hd.2 _ h2
  omega

/-- Distances that fit in 32 bits are not enough: the wrapped sum through `B`
is 2, less than the direct cost 10, and the search takes it. -/
theorem forwardSet_wrapped_sum :
    ¬ ∀ (H : AdjHash) (g : AdjGraph) (p : UInt16) (u : ℕ), g.Built →
      u < g.userTab.length → (∀ q, g.PosCost q) →
      (∀ v d, IsDist (g.Edge p) u v d → d < 2 ^ 32) →
      ShortestPathTree g p u (g.forwardSet H p u) := by
  intro h
  have ht := h ⟨fun _ => 0, fun _ => 0⟩ wrapGraph 0 0 wrapGraph_built (by decide)
    (fun q i l hl => ?_) (fun v d hd => wrapGraph_dist hd)
  · have hmem : (⟨⟨1, 2, "bc", "tcp", AdjCost.const 4294967293, 0, 2, 0⟩, 2, 0⟩ :
        AdjFwd) ∈ wrapGraph.forwardSet ⟨fun _ => 0, fun _ => 0⟩ 0 0 := by decide
    have hw := (ht.cost _ hmem).1
    generalize hc : UInt32.toNat 2 = c at hw
    cases hw with
    | snoc _ he =>
      have h5 := (wrapGraph_edge he).2
      rw [show UInt32.toNat 2 = 2 from rfl] at hc
      omega
  · obtain ⟨-, hc, h5⟩ := wrapGraph_links hl
    rw [hc, AdjCost.get_const]
    omega

end Raims
