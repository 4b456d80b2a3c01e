import Raims.Graph.Flood
import Raims.Graph.UpdateGraph

/-!
# Inbox messages, hop by hop (`TransportRoute::on_msg`)

An inbox message is not flooded: each node on the way looks its destination up
in its own `calc_path` and passes the message on over the first link of its own
tree. It gets there because every first link is tight, however the nodes break
ties. The sums are 32 bits wide, and a wrapped one breaks this.
-/

namespace Raims

open WeightedDigraph

/-! ## The next hop -/

/-- `fc.path[ uid ]`: the entry written last. -/
def ForwardCache.pathAt (fc : ForwardCache) (uid : ℕ) : Option UidSrcPath :=
  (fc.path.reverse.find? fun x => x.1 = uid).map Prod.snd

/-- The link of `me` through which its tree reaches `d`. -/
def AdjGraph.nextHop (H : AdjHash) (g : AdjGraph) (p : UInt16) (me d : ℕ) :
    Option AdjLink :=
  ((g.forwardSet H p me).find? fun e => e.link.b = d).bind fun e =>
    (g.links me)[e.src]?

/-- A network whose nodes hold one graph, each under its own numbering of the
users: a node is 0 to itself. -/
structure AdjNet where
  graph : AdjGraph
  built : graph.Built
  uids : (graph.userTab.map AdjUser.uid).Nodup
  numbering : ℕ → Equiv.Perm ℕ
  self : ∀ x u, graph.userTab[x]? = some u → numbering x u.uid = 0

namespace AdjNet

/-- The graph of the node at index `x`. -/
def own (net : AdjNet) (x : ℕ) : AdjGraph := net.graph.rename (net.numbering x)

/-- `fc.path[ d ]` at the node at index `x`. -/
def path (net : AdjNet) (H : AdjHash) (p : UInt16) (x d : ℕ) : Option UidSrcPath :=
  ((net.own x).calcPath H p x).pathAt ((net.own x).uidOf d)

/-- The links an inbox message to `d` takes from `x` on. -/
abbrev InboxRoute (net : AdjNet) (H : AdjHash) (p : UInt16) (d : ℕ) :
    ℕ → List AdjLink → Prop :=
  Route (fun x => (net.own x).nextHop H p x d) AdjLink.b d

end AdjNet

theorem find?_of_unique {β : Type*} {l : List β} {q : β → Bool} {e : β}
    (he : e ∈ l) (hq : q e = true) (huniq : ∀ e' ∈ l, q e' = true → e' = e) :
    l.find? q = some e := by
  obtain ⟨e', he'⟩ : ∃ e', l.find? q = some e' := by
    rw [← Option.isSome_iff_exists, List.find?_isSome]
    exact ⟨e, he, hq⟩
  rw [he', huniq e' (List.mem_of_find?_eq_some he') (List.find?_some he')]

/-! ## Every tree link is tight -/

section

variable {g : AdjGraph} {p : UInt16} {u : ℕ}

/-- The label of the head of a tree link is that of its tail and the cost of the
link. -/
def TightLabels (p : UInt16) (s : FwdState) : Prop :=
  ∀ e ∈ s.fwd, (s.visit.cost e.link.b).toNat =
    (s.visit.cost e.link.a).toNat + (e.link.cost.get p).toNat

/-- A collected link was offered at the least cost. -/
theorem MinCost.mem_cands {cands : List (UInt32 × AdjLink)} {l : AdjLink}
    (hl : l ∈ (MinCost.ofList cands).links) :
    ((MinCost.ofList cands).minCost, l) ∈ cands := by
  induction cands using List.reverseRecOn with
  | nil => simp [MinCost.ofList, MinCost.init] at hl
  | append_singleton cands cl ih =>
    obtain ⟨c, l'⟩ := cl
    rw [MinCost.ofList_snoc] at hl ⊢
    unfold MinCost.offer at hl ⊢
    split at hl
    · next hlt =>
        rw [if_pos hlt, List.mem_singleton.mp hl]
        simp
    · next hlt =>
        rw [if_neg hlt]
        split at hl
        · next heq =>
            rw [if_pos heq]
            rcases List.mem_append.mp hl with hl | hl
            · exact List.mem_append_left _ (ih hl)
            · rw [List.mem_singleton.mp hl, heq]
              simp
        · next hne =>
            rw [if_neg hne]
            exact List.mem_append_left _ (ih hl)

theorem mem_fwd_foldl {f : FwdState → AdjLink → FwdState}
    (hf : ∀ s l, ∀ e ∈ (f s l).fwd, e ∈ s.fwd ∨ e.link = l) :
    ∀ (links : List AdjLink) (s : FwdState), ∀ e ∈ (links.foldl f s).fwd,
      e ∈ s.fwd ∨ e.link ∈ links := by
  intro links
  induction links with
  | nil => exact fun s e he => Or.inl he
  | cons l links ih =>
    intro s e he
    rcases ih (f s l) e he with h | h
    · rcases hf s l e h with h | h
      · exact Or.inl h
      · exact Or.inr (by simp [h])
    · exact Or.inr (List.mem_cons_of_mem _ h)

theorem mem_fwd_addFwdSet (cost : UInt32) (s : FwdState) (l : AdjLink) :
    ∀ e ∈ (s.addFwdSet cost l).fwd, e ∈ s.fwd ∨ e.link = l := by
  intro e he
  rcases List.mem_append.mp he with he | he
  · exact Or.inl he
  · rw [List.mem_singleton.mp he]
    exact Or.inr rfl

theorem mem_fwd_round (H : AdjHash) (s : FwdState) (m : MinCost) {e : AdjFwd}
    (he : e ∈ (s.round H p m).fwd) : e ∈ s.fwd ∨ e.link ∈ m.links := by
  unfold FwdState.round at he
  split at he
  · exact mem_fwd_foldl (mem_fwd_addFwdSet m.minCost) _ _ e he
  · have hnew : ∀ s l, ∀ e ∈ (FwdState.addFwdNew s m.minCost l).fwd,
        e ∈ s.fwd ∨ e.link = l := by
      intro s l e he
      unfold FwdState.addFwdNew at he
      split at he
      · exact Or.inl he
      · exact mem_fwd_addFwdSet m.minCost s l e he
    rcases mem_fwd_foldl hnew _ _ e he with h | h
    · exact Or.inl h
    · exact Or.inr ((sortLinks_perm H p _).mem_iff.mp h)

/-- Both ends of a tree link are visited. -/
theorem TreeInv.tail_mem {s : FwdState} (h : TreeInv g u s) {e : AdjFwd}
    (he : e ∈ s.fwd) : e.link.a ∈ s.visit.user := by
  obtain ⟨pre, post, heq⟩ := List.append_of_mem he
  rw [h.visited]
  rcases h.tree.parent pre e post heq with ha | ⟨e', he', ha⟩
  · exact Or.inl ha
  · refine Or.inr ⟨e', ?_, ha⟩
    rw [heq]
    exact List.mem_append_left _ he'

/-- What the search keeps: the tree, the settled set and the tight labels. -/
structure SearchInv (g : AdjGraph) (p : UInt16) (u : ℕ) (s : FwdState) : Prop where
  tree : TreeInv g u s
  settled : VisitSettled g p u s.visit
  tight : TightLabels p s

theorem searchInv_round (hg : g.WF) (hpos : g.PosCost p) (hwrap : g.NoWrap p u)
    (H : AdjHash) {s : FwdState} (h : SearchInv g p u s)
    (hm : (g.getMinCost p s.visit).minCost ≠ 0) :
    SearchInv g p u (s.round H p (g.getMinCost p s.visit)) := by
  refine ⟨h.tree.round hg H hm, visitSettled_round hg hpos hwrap H h.settled hm, ?_⟩
  have hlinks : ∀ l ∈ (g.getMinCost p s.visit).links,
      l ∈ g.links l.a ∧ l.a ∈ s.visit.user ∧ l.b ∉ s.visit.user :=
    fun l hl => TreeInv.of_mem_links hg hl
  obtain ⟨-, hc⟩ := FwdState.visit_round H p s (g.getMinCost p s.visit)
    fun l hl => (hlinks l hl).2.2
  -- a visited user keeps its label
  have hold : ∀ v ∈ s.visit.user,
      (s.round H p (g.getMinCost p s.visit)).visit.cost v = s.visit.cost v := by
    intro v hv
    rw [hc, if_neg]
    rintro ⟨l, hl, rfl⟩
    exact (hlinks l hl).2.2 hv
  intro e he
  rcases mem_fwd_round H s _ he with he | he
  · have hb : e.link.b ∈ s.visit.user :=
      (h.tree.visited _).mpr (Or.inr ⟨e, he, rfl⟩)
    rw [hold _ hb, hold _ (h.tree.tail_mem he)]
    exact h.tight e he
  · obtain ⟨hla, ha, hb⟩ := hlinks e.link he
    rw [hc, if_pos ⟨e.link, he, rfl⟩, hold _ ha,
      ← toNat_frontier_cost hwrap h.settled ha hla hb]
    obtain ⟨a, -, hla', -, hcost⟩ := AdjGraph.mem_frontier.mp (MinCost.mem_cands he)
    rw [hg.source a _ hla']
    exact congrArg UInt32.toNat hcost

theorem searchInv_forwardFrom (hg : g.WF) (hu : u < g.userTab.length)
    (hpos : g.PosCost p) (hwrap : g.NoWrap p u) (H : AdjHash) :
    SearchInv g p u (g.forwardFrom H p u) :=
  forwardLoop_inv (fun _ h hm => searchInv_round hg hpos hwrap H h hm) _ _
    ⟨treeInv_start g hu, visitSettled_start hpos u, by simp [TightLabels, FwdState.start]⟩

/-- The cost of a list of links on path `p`. -/
def linkSum (p : UInt16) (path : List AdjLink) : ℕ :=
  (path.map fun l => (l.cost.get p).toNat).sum

/-- The tree path to a user costs its distance. -/
theorem isDist_treePath (hg : g.WF) (hu : u < g.userTab.length) (hpos : g.PosCost p)
    (hwrap : g.NoWrap p u) (H : AdjHash) {v : ℕ} {path : List AdjLink}
    (h : TreePath (g.forwardSet H p u) u v path) :
    IsDist (g.Edge p) u v (linkSum p path) := by
  have hinv := searchInv_forwardFrom hg hu hpos hwrap H
  induction h with
  | root => exact isDist_self
  | @step e path he _ ih =>
    have ha := hinv.settled.exact _ (hinv.tree.tail_mem he)
    have hb := hinv.settled.exact e.link.b
      ((hinv.tree.visited _).mpr (Or.inr ⟨e, he, rfl⟩))
    have hsum : linkSum p (path ++ [e.link]) =
        ((g.forwardFrom H p u).visit.cost e.link.b).toNat := by
      rw [hinv.tight e he, ← ih.unique ha]
      simp [linkSum]
    rw [hsum]
    exact hb

/-- What follows the first link of a tree path is a walk from its head. -/
theorem walk_of_treePath (H : AdjHash) (hg : g.WF) (hu : u < g.userTab.length)
    {v : ℕ} {path : List AdjLink} (h : TreePath (g.forwardSet H p u) u v path)
    {l : AdjLink} {rest : List AdjLink} (heq : path = l :: rest) :
    Walk (g.Edge p) l.b v (linkSum p rest) := by
  induction h generalizing l rest with
  | root => simp at heq
  | @step e path he hp ih =>
    cases path with
    | nil =>
      obtain ⟨rfl, rfl⟩ : e.link = l ∧ [] = rest := by simpa using heq
      exact .nil
    | cons l' path' =>
      obtain ⟨rfl, rfl⟩ : l' = l ∧ path' ++ [e.link] = rest := by simpa using heq
      have hedge : g.Edge p e.link.a e.link.b (e.link.cost.get p).toNat :=
        ⟨e.link, (fwdTree_forwardSet hg H p hu).link e he, rfl, rfl⟩
      have hsum : linkSum p (path' ++ [e.link]) =
          linkSum p path' + (e.link.cost.get p).toNat := by simp [linkSum]
      rw [hsum]
      exact (ih rfl).snoc hedge

/-- **The next hop is tight.** The first link of the tree towards a reachable
user `d`, and the distance from its head. -/
theorem nextHop_tight (H : AdjHash) (hg : g.WF) (hu : u < g.userTab.length)
    (hpos : g.PosCost p) (hwrap : g.NoWrap p u) {d : ℕ} (hne : d ≠ u)
    (hr : Reaches (g.Edge p) u d) :
    ∃ e ∈ g.forwardSet H p u, ∃ l c, e.link.b = d ∧
      (g.links u)[e.src]? = some l ∧ g.nextHop H p u d = some l ∧
      IsDist (g.Edge p) l.b d c ∧ (l.cost.get p).toNat + c = e.cost.toNat := by
  have hspt := shortestPathTree_of_wf H hg hu hpos hwrap
  obtain ⟨e, he, rfl⟩ := (hspt.spans d).mpr ⟨hne, hr⟩
  obtain ⟨l, rest, hp, hl⟩ := hspt.src e he
  have hd := isDist_treePath hg hu hpos hwrap H hp
  have hfind : (g.forwardSet H p u).find? (fun e' => e'.link.b = e.link.b) = some e := by
    refine find?_of_unique he (by simp) fun e' he' hb => ?_
    exact List.inj_on_of_nodup_map hspt.nodup he' he (by simpa using hb)
  refine ⟨e, he, l, linkSum p rest, rfl, hl, ?_, ?_, ?_⟩
  · rw [AdjGraph.nextHop, hfind]
    exact hl
  · have hlu : l ∈ g.links u := List.mem_of_getElem? hl
    have hcons : linkSum p (l :: rest) = (l.cost.get p).toNat + linkSum p rest := by
      simp [linkSum]
    rw [hcons] at hd
    exact hd.tail ⟨l, hlu, rfl, rfl⟩ (walk_of_treePath H hg hu hp rfl)
  · rw [← hd.unique (hspt.cost e he)]
    simp [linkSum]

end

/-! ## The route -/

namespace AdjNet

variable (net : AdjNet)

@[simp] theorem links_own (x i : ℕ) : (net.own x).links i = net.graph.links i :=
  AdjGraph.links_rename _ _ _

@[simp] theorem forwardSet_own (H : AdjHash) (p : UInt16) (x i : ℕ) :
    (net.own x).forwardSet H p i = net.graph.forwardSet H p i :=
  AdjGraph.forwardSet_rename _ _ _ _ _

@[simp] theorem nextHop_own (H : AdjHash) (p : UInt16) (x i d : ℕ) :
    (net.own x).nextHop H p i d = net.graph.nextHop H p i d := by
  simp [AdjGraph.nextHop]

/-- A node's uids tell the users apart. -/
theorem uidOf_own_inj (x : ℕ) {i j : ℕ} (hi : i < net.graph.userTab.length)
    (hj : j < net.graph.userTab.length)
    (h : (net.own x).uidOf i = (net.own x).uidOf j) : i = j := by
  simp only [own, AdjGraph.uidOf, AdjGraph.rename, List.getElem?_map,
    List.getElem?_eq_getElem hi, List.getElem?_eq_getElem hj, Option.map_some,
    Option.getD_some, EmbeddingLike.apply_eq_iff_eq] at h
  refine (@List.Nodup.getElem_inj_iff _ _ net.uids i (by simpa using hi) j
    (by simpa using hj)).mp ?_
  simpa only [List.getElem_map] using h

/-- The entry of `calc_path` for the head of a tree link. -/
theorem path_of_mem (H : AdjHash) (p : UInt16) {x : ℕ}
    (hx : x < net.graph.userTab.length) {e : AdjFwd}
    (he : e ∈ net.graph.forwardSet H p x) {l : AdjLink}
    (hl : (net.graph.links x)[e.src]? = some l) :
    net.path H p x e.link.b =
      some ⟨l.tid, (net.own x).uidOf e.link.a, e.cost⟩ := by
  have htree := fwdTree_forwardSet net.built.wf H p hx
  have hfind : ((net.own x).calcPath H p x).path.reverse.find?
      (fun y => y.1 = (net.own x).uidOf e.link.b) =
      some ((net.own x).uidOf e.link.b,
        ⟨l.tid, (net.own x).uidOf e.link.a, e.cost⟩) := by
    refine find?_of_unique ?_ (by simp) ?_
    · simp only [AdjGraph.calcPath, forwardSet_own, links_own, List.mem_reverse,
        List.mem_map]
      exact ⟨e, he, by rw [hl]; rfl⟩
    · simp only [AdjGraph.calcPath, forwardSet_own, links_own, List.mem_reverse,
        List.mem_map, decide_eq_true_eq]
      rintro y ⟨e', he', rfl⟩ hy
      have hb := net.uidOf_own_inj x (net.built.wf.dest _ _ (htree.link e' he'))
        (net.built.wf.dest _ _ (htree.link e he)) hy
      obtain rfl := List.inj_on_of_nodup_map htree.nodup he' he hb
      rw [hl]
      rfl
  rw [path, ForwardCache.pathAt, hfind]
  rfl

/-- The next hop is on the transport that `calc_path` has for the destination. -/
theorem tport_of_nextHop (H : AdjHash) (p : UInt16) {x d : ℕ} {l : AdjLink}
    (h : net.graph.nextHop H p x d = some l) :
    l.a = x ∧ ∃ e, net.path H p x d = some e ∧ e.tport = l.tid := by
  obtain ⟨e, he, hl⟩ := Option.bind_eq_some_iff.mp h
  have hlx : l ∈ net.graph.links x := List.mem_of_getElem? hl
  obtain rfl : e.link.b = d := by simpa using List.find?_some he
  exact ⟨net.built.wf.source x l hlx, _, net.path_of_mem H p
    (AdjGraph.lt_length_of_mem_links hlx) (List.mem_of_find?_eq_some he) hl, rfl⟩

/-- **Inbox routes.** Where link costs are at least one and no sum wraps in the
searches of the nodes on the way, following each node's own next hop from `a`
comes to `d`, on the transports `calc_path` selects, with no node twice, and the
link costs add up to the cost that `calc_path` has at `a`. -/
theorem inboxRoute_exact (H : AdjHash) (p : UInt16) {a d : ℕ}
    (ha : a < net.graph.userTab.length) (hne : a ≠ d)
    (hr : Reaches (net.graph.Edge p) a d) (hpos : net.graph.PosCost p)
    (hwrap : ∀ x, Reaches (net.graph.Edge p) a x → net.graph.NoWrap p x) :
    ∃ hops e, net.InboxRoute H p d a hops ∧ (a :: hops.map AdjLink.b).Nodup ∧
      (∀ l ∈ hops, ∃ e', net.path H p l.a d = some e' ∧ e'.tport = l.tid) ∧
      net.path H p a d = some e ∧ linkSum p hops = e.cost.toNat := by
  have hwf := net.built.wf
  have htight : TightNext (net.graph.Edge p) (fun x => (net.own x).nextHop H p x d)
      AdjLink.b (fun l => (l.cost.get p).toNat) d
      (fun x => x < net.graph.userTab.length ∧ Reaches (net.graph.Edge p) a x) := by
    rintro x c ⟨hx, hax⟩ hxd hc
    obtain ⟨e, he, l, c', rfl, hl, hnext, hc', hsum⟩ := nextHop_tight H hwf hx hpos
      (hwrap x hax) (Ne.symm hxd) ⟨c, hc.1⟩
    have hlx : l ∈ net.graph.links x := List.mem_of_getElem? hl
    obtain ⟨k, hk⟩ := hax
    have hcost := (shortestPathTree_of_wf H hwf hx hpos (hwrap x ⟨k, hk⟩)).cost e he
    refine ⟨l, c', (net.nextHop_own H p x x _).trans hnext,
      ⟨hwf.dest x l hlx, _, hk.snoc ⟨l, hlx, rfl, rfl⟩⟩, hpos x l hlx, hc', ?_⟩
    rw [hsum, hcost.unique hc]
  obtain ⟨c, hc⟩ := reaches_iff_exists_isDist.mp hr
  obtain ⟨hops, hroute, hsum, hnd, -⟩ := exists_route htight c a ⟨ha, 0, .nil⟩ hc
  have hspt := shortestPathTree_of_wf H hwf ha hpos (hwrap a ⟨0, .nil⟩)
  obtain ⟨e, he, rfl⟩ := (hspt.spans d).mpr ⟨Ne.symm hne, hr⟩
  obtain ⟨l, -, -, hl⟩ := hspt.src e he
  refine ⟨hops, _, hroute, hnd, ?_, net.path_of_mem H p ha he hl, ?_⟩
  · intro l' hl'
    obtain ⟨y, hy⟩ := hroute.next_of_mem l' hl'
    obtain ⟨rfl, hpath⟩ := net.tport_of_nextHop H p
      ((net.nextHop_own H p y y _).symm.trans hy)
    exact hpath
  · exact hsum.trans (hc.unique (hspt.cost e he))

end AdjNet

/-! ## Two networks -/

/-- Each node swaps its own number with 0. -/
def squareNet : AdjNet where
  graph := squareGraph
  built := squareGraph_built
  uids := by decide
  numbering x := Equiv.swap 0 x
  self := by
    intro x u hu
    have hx : x < 4 := (List.getElem?_eq_some_iff.mp hu).1
    have huid : ∀ y < 4, (squareGraph.userTab[y]?).map AdjUser.uid = some y := by decide
    obtain rfl : u.uid = x := by
      have h := huid x hx
      rw [hu] at h
      exact Option.some.inj h
    exact Equiv.swap_apply_right _ _

/-- From `A` to `D` over a node between them. -/
theorem inboxRoute_exact_squareNet :
    ∃ hops e, squareNet.InboxRoute ⟨fun _ => 0, fun _ => 0⟩ 0 3 0 hops ∧
      (0 :: hops.map AdjLink.b).Nodup ∧
      (∀ l ∈ hops, ∃ e', squareNet.path ⟨fun _ => 0, fun _ => 0⟩ 0 l.a 3 = some e' ∧
        e'.tport = l.tid) ∧
      squareNet.path ⟨fun _ => 0, fun _ => 0⟩ 0 0 3 = some e ∧
      linkSum 0 hops = e.cost.toNat :=
  squareNet.inboxRoute_exact _ 0 (a := 0) (d := 3) (by decide) (by decide)
    (squareGraph_reaches (by decide) (by decide)) squareGraph_posCost
    fun x hx => squareGraph_noWrap (reaches_lt squareGraph_built.wf (by decide) hx)

def wrapNet : AdjNet where
  graph := wrapGraph
  built := wrapGraph_built
  uids := by decide
  numbering x := Equiv.swap 0 x
  self := by
    intro x u hu
    have hx : x < 3 := (List.getElem?_eq_some_iff.mp hu).1
    obtain rfl : u.uid = x := by
      interval_cases x
      · exact (congrArg AdjUser.uid (Option.some.inj hu)).symm
      · exact (congrArg AdjUser.uid (Option.some.inj hu)).symm
      · exact (congrArg AdjUser.uid (Option.some.inj hu)).symm
    exact Equiv.swap_apply_right _ _

/-- `A` sends to `C` through `B`, at a wrapped cost of 2; the two links cost
`2^32 + 2`. -/
theorem inboxRoute_wrapped_cost :
    ¬ ∀ (net : AdjNet) (H : AdjHash) (p : UInt16) (a d : ℕ),
      a < net.graph.userTab.length → a ≠ d → Reaches (net.graph.Edge p) a d →
      net.graph.PosCost p →
      ∃ hops e, net.InboxRoute H p d a hops ∧ (a :: hops.map AdjLink.b).Nodup ∧
        (∀ l ∈ hops, ∃ e', net.path H p l.a d = some e' ∧ e'.tport = l.tid) ∧
        net.path H p a d = some e ∧ linkSum p hops = e.cost.toNat := by
  intro h
  let H : AdjHash := ⟨fun _ => 0, fun _ => 0⟩
  let ab : AdjLink := ⟨0, 1, "ab", "tcp", AdjCost.const 5, 0, 0, 0⟩
  let ac : AdjLink := ⟨0, 2, "ac", "tcp", AdjCost.const 10, 1, 1, 1⟩
  obtain ⟨hops, e, hroute, -, -, hpath, hsum⟩ := h wrapNet H 0 0 2 (by decide) (by decide)
    ⟨_, .snoc .nil ⟨ac, by decide, rfl, rfl⟩⟩ (fun i l hl => by
      obtain ⟨-, hc, h5⟩ := wrapGraph_links hl
      rw [hc, AdjCost.get_const]
      omega)
  have hcost : (wrapNet.path H 0 0 2).map UidSrcPath.cost = some 2 := by decide
  have hnext : (wrapNet.own 0).nextHop H 0 0 2 = some ab := by decide
  rw [hpath] at hcost
  rw [Option.some.inj hcost] at hsum
  cases hroute with
  | hop _ hl _ =>
    obtain rfl := Option.some.inj (hnext.symm.trans hl)
    have h5 : (ab.cost.get 0).toNat = 5 := by decide
    simp only [linkSum, List.map_cons, List.sum_cons, h5] at hsum
    exact absurd hsum (by rw [show UInt32.toNat 2 = 2 from rfl]; omega)

end Raims
