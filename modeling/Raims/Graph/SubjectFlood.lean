import Raims.Graph.InboxRoute

/-!
# Messages of a subject (`TransportRoute::on_msg`)

A message is forwarded on a link of the source's tree only if the bloom of some user that the
subject matches is on it, and a node puts the bloom of a user where its own tree goes to that
user (`find_adjacent_routes`). So the trees must agree: below any node, the tree of the source
is the node's own. They do, because equal paths are told apart by an order of the links that
does not depend on the root.
-/

namespace Raims

open WeightedDigraph

/-! ## The order of the links -/

/-- By the hash, and then by the places in the graph. -/
def LinkLe (H : AdjHash) (p : UInt16) (l l' : AdjLink) : Prop :=
  H.key p l.linkNum < H.key p l'.linkNum ∨
    H.key p l.linkNum = H.key p l'.linkNum ∧ (l.a < l'.a ∨ l.a = l'.a ∧ l.idx ≤ l'.idx)

instance : Std.Total fun e f : HashOrder × AdjLink => e.1.le f.1 where
  total e f := by
    unfold HashOrder.le
    by_cases h : e.1.h = f.1.h
    · rcases Nat.le_total e.1.val f.1.val with hv | hv
      · exact Or.inl (Or.inr ⟨h, hv⟩)
      · exact Or.inr (Or.inr ⟨h.symm, hv⟩)
    · exact (UInt32.lt_or_lt_of_ne h).imp Or.inl Or.inl

instance : IsTrans (HashOrder × AdjLink) fun e f => e.1.le f.1 where
  trans e f k h h' := by
    unfold HashOrder.le at *
    rcases h with h | ⟨h, hv⟩
    · rcases h' with h' | ⟨h', -⟩
      · exact Or.inl (UInt32.lt_trans h h')
      · exact Or.inl (h' ▸ h)
    · rcases h' with h' | ⟨h', hv'⟩
      · exact Or.inl (h ▸ h')
      · exact Or.inr ⟨h.trans h', Nat.le_trans hv hv'⟩

/-- The order of the loops in `get_min_cost`. -/
def LoopLe (l l' : AdjLink) : Prop := l.a < l'.a ∨ l.a = l'.a ∧ l.idx ≤ l'.idx

theorem LinkLe.refl (H : AdjHash) (p : UInt16) (l : AdjLink) : LinkLe H p l l :=
  Or.inr ⟨rfl, Or.inr ⟨rfl, Nat.le_refl _⟩⟩

theorem LinkLe.antisymm {H : AdjHash} {p : UInt16} {l l' : AdjLink} (h : LinkLe H p l l')
    (h' : LinkLe H p l' l) : l.a = l'.a ∧ l.idx = l'.idx := by
  rcases h with hlt | ⟨heq, hloop⟩
  · rcases h' with hlt' | ⟨heq', -⟩
    · exact absurd hlt' (UInt32.lt_asymm hlt)
    · rw [heq'] at hlt
      exact absurd hlt (UInt32.lt_irrefl _)
  · rcases h' with hlt' | ⟨-, hloop'⟩
    · rw [heq] at hlt'
      exact absurd hlt' (UInt32.lt_irrefl _)
    · omega

theorem pairwise_toList (s : Finset ℕ) : (BitSpace.toList s).Pairwise (· < ·) :=
  List.pairwise_lt_range.sublist List.filter_sublist

section

variable {g : AdjGraph} {p : UInt16} {u : ℕ}

theorem pairwise_links (hg : g.WF) {visit : AdjVisit} {a : ℕ} (ha : a ∈ visit.user) :
    ((g.links a).filter fun l => l.b ∉ visit.user).Pairwise LoopLe := by
  rw [List.pairwise_filter, List.pairwise_iff_getElem]
  intro i j hi hj hij hbi hbj
  have hsource : ∀ {k : ℕ} (hk : k < (g.links a).length), (g.links a)[k].a = a :=
    fun hk => hg.source a _ (List.getElem_mem hk)
  have hidx : ∀ {k : ℕ} (hk : k < (g.links a).length),
      (g.links a)[k].b ∉ visit.user → (g.links a)[k].idx = k := by
    intro k hk hb
    refine hg.index a k _ (List.getElem?_eq_getElem hk) fun heq => hb ?_
    rw [heq, hsource hk]
    exact ha
  refine Or.inr ⟨(hsource hi).trans (hsource hj).symm, ?_⟩
  rw [hidx hi (of_decide_eq_true hbi), hidx hj (of_decide_eq_true hbj)]
  exact Nat.le_of_lt hij

theorem pairwise_frontier (hg : g.WF) (visit : AdjVisit) :
    ((g.frontier p visit).map Prod.snd).Pairwise LoopLe := by
  rw [AdjGraph.frontier, List.map_flatMap, List.pairwise_flatMap]
  constructor
  · intro a ha
    rw [List.map_map]
    have hlinks := pairwise_links hg (BitSpace.mem_toList.mp ha)
    exact (List.map_id _).symm ▸ hlinks
  · refine (pairwise_toList visit.user).imp fun {a a'} hlt l hl l' hl' => ?_
    have hsource : ∀ {c : ℕ} {k : AdjLink},
        k ∈ (((g.links c).filter fun l => l.b ∉ visit.user).map fun l =>
          (l.cost.get p + visit.cost c, l)).map Prod.snd → k.a = c := by
      intro c k hk
      rw [List.map_map] at hk
      obtain ⟨k', hk', rfl⟩ := List.mem_map.mp hk
      exact hg.source c _ (List.mem_of_mem_filter hk')
    rw [LoopLe, hsource hl, hsource hl']
    exact Or.inl hlt

/-- The links are collected in the order of the loops. -/
theorem MinCost.links_sublist (cands : List (UInt32 × AdjLink)) :
    (MinCost.ofList cands).links.Sublist (cands.map Prod.snd) := by
  induction cands using List.reverseRecOn with
  | nil => exact List.Sublist.refl []
  | append_singleton cands cl ih =>
    obtain ⟨c, l⟩ := cl
    rw [MinCost.ofList_snoc, List.map_append]
    unfold MinCost.offer
    split
    · exact List.sublist_append_right _ _
    · split
      · exact ih.append (List.Sublist.refl _)
      · exact ih.trans (List.sublist_append_left _ _)

/-- Links that are in the order of the loops are sorted into the order of the links. -/
theorem pairwise_sortLinks (H : AdjHash) {links : List AdjLink} (h : links.Pairwise LoopLe) :
    (sortLinks H p links).Pairwise (LinkLe H p) := by
  have hsorted := List.pairwise_insertionSort
    (fun e f : HashOrder × AdjLink => e.1.le f.1)
    (links.zipIdx.map fun lx => ((⟨H.key p lx.1.linkNum, lx.2⟩ : HashOrder), lx.1))
  rw [sortLinks, List.pairwise_map]
  refine hsorted.imp_of_mem fun {e f} he hf hle => ?_
  have hpos : ∀ {e : HashOrder × AdjLink}, e ∈ (links.zipIdx.map fun lx =>
      ((⟨H.key p lx.1.linkNum, lx.2⟩ : HashOrder), lx.1)).insertionSort
        (fun e f => e.1.le f.1) →
      e.1.h = H.key p e.2.linkNum ∧ links[e.1.val]? = some e.2 := by
    intro e he
    rw [List.mem_insertionSort, List.mem_map] at he
    obtain ⟨lx, hlx, rfl⟩ := he
    exact ⟨rfl, List.mem_zipIdx_iff_getElem?.mp hlx⟩
  obtain ⟨hhe, hve⟩ := hpos he
  obtain ⟨hhf, hvf⟩ := hpos hf
  rw [HashOrder.le, hhe, hhf] at hle
  refine hle.imp_right fun hle => ⟨hle.1, ?_⟩
  rcases Nat.lt_or_eq_of_le hle.2 with hlt | heq
  · obtain ⟨hi, hei⟩ := List.getElem?_eq_some_iff.mp hve
    obtain ⟨hj, hfj⟩ := List.getElem?_eq_some_iff.mp hvf
    rw [← hei, ← hfj]
    exact List.pairwise_iff_getElem.mp h _ _ hi hj hlt
  · rw [heq, hvf] at hve
    rw [Option.some.inj hve]
    exact Or.inr ⟨rfl, Nat.le_refl _⟩

/-- Of the links to one user the first is taken. -/
theorem mem_fwd_foldl_addFwdNew (H : AdjHash) (cost : UInt32) (links : List AdjLink)
    (h : links.Pairwise (LinkLe H p)) (s : FwdState) :
    ∀ e ∈ (links.foldl (fun s l => s.addFwdNew cost l) s).fwd, e ∈ s.fwd ∨
      e.link.b ∉ s.visit.user ∧ ∀ l ∈ links, l.b = e.link.b → LinkLe H p e.link l := by
  induction links generalizing s with
  | nil => exact fun e he => Or.inl he
  | cons l links ih =>
    obtain ⟨hfirst, hrest⟩ := List.pairwise_cons.mp h
    intro e he
    rw [List.foldl_cons] at he
    by_cases hb : l.b ∈ s.visit.user
    · rw [show s.addFwdNew cost l = s from if_pos hb] at he
      refine (ih hrest s e he).imp_right fun ⟨hnew, hle⟩ => ⟨hnew, ?_⟩
      rintro l' hl' heq
      rcases List.mem_cons.mp hl' with rfl | hl'
      · rw [heq] at hb
        exact absurd hb hnew
      · exact hle l' hl' heq
    · rw [show s.addFwdNew cost l = s.addFwdSet cost l from if_neg hb] at he
      rcases ih hrest _ e he with hin | ⟨hnew, hle⟩
      · rcases mem_fwd_addFwdSet cost s l e hin with hin | rfl
        · exact Or.inl hin
        · refine Or.inr ⟨hb, fun l' hl' _ => ?_⟩
          rcases List.mem_cons.mp hl' with rfl | hl'
          · exact LinkLe.refl H p _
          · exact hfirst l' hl'
      · have hnew : e.link.b ∉ insert l.b s.visit.user := hnew
        obtain ⟨hne, hnew⟩ := not_or.mp (mt Finset.mem_insert.mpr hnew)
        refine Or.inr ⟨hnew, fun l' hl' heq => ?_⟩
        rcases List.mem_cons.mp hl' with rfl | hl'
        · exact absurd heq.symm hne
        · exact hle l' hl' heq

/-- Of the collected links to one user a round takes the first in the order of the links. -/
theorem linkLe_round (hg : g.WF) (H : AdjHash) (s : FwdState) {e : AdjFwd}
    (he : e ∈ (s.round H p (g.getMinCost p s.visit)).fwd) :
    e ∈ s.fwd ∨ e.link ∈ (g.getMinCost p s.visit).links ∧
      ∀ l ∈ (g.getMinCost p s.visit).links, l.b = e.link.b → LinkLe H p e.link l := by
  have hmem := mem_fwd_round H s _ he
  have hloop : (g.getMinCost p s.visit).links.Pairwise LoopLe := by
    rw [MinCost.getMinCost_eq]
    exact (pairwise_frontier hg s.visit).sublist (MinCost.links_sublist _)
  unfold FwdState.round at he
  split at he
  · next hdup =>
      have hnodup := (MinCost.collected (g.frontier p s.visit)).nodup hdup
      refine hmem.imp_right fun hin => ⟨hin, fun l hl heq => ?_⟩
      rw [List.inj_on_of_nodup_map hnodup hl hin heq]
      exact LinkLe.refl H p _
  · rcases mem_fwd_foldl_addFwdNew H _ _ (pairwise_sortLinks H hloop) _ e he with hin | ⟨hnew, hle⟩
    · exact Or.inl hin
    · rcases hmem with hin | hin
      · exact Or.inl hin
      · refine Or.inr ⟨hin, fun l hl heq => ?_⟩
        exact hle l ((sortLinks_perm H p _).mem_iff.mpr hl) heq

/-- A link that is on a shortest path to its head. -/
def Tight (g : AdjGraph) (p : UInt16) (u : ℕ) (l : AdjLink) : Prop :=
  l ∈ g.links l.a ∧ ∃ d, IsDist (g.Edge p) u l.a d ∧
    IsDist (g.Edge p) u l.b (d + (l.cost.get p).toNat)

/-- Each tree link is tight, and the first of the tight links to its head. -/
def FirstTight (H : AdjHash) (g : AdjGraph) (p : UInt16) (u : ℕ) (fwd : List AdjFwd) : Prop :=
  ∀ e ∈ fwd, Tight g p u e.link ∧
    ∀ l, Tight g p u l → l.b = e.link.b → LinkLe H p e.link l

/-- A tight link to a user that the round visits was collected. -/
theorem mem_links_of_tight (hg : g.WF) (hpos : g.PosCost p) (hwrap : g.NoWrap p u) (H : AdjHash)
    {s : FwdState} (h : SearchInv g p u s) (hm : (g.getMinCost p s.visit).minCost ≠ 0)
    {l : AdjLink} (hl : Tight g p u l)
    (hb : ∃ l' ∈ (g.getMinCost p s.visit).links, l'.b = l.b) :
    l ∈ (g.getMinCost p s.visit).links := by
  obtain ⟨hla, d, hda, hdb⟩ := hl
  have hnew := visitSettled_round hg hpos hwrap H h.settled hm
  obtain ⟨hu, hc⟩ := FwdState.visit_round H p s (g.getMinCost p s.visit)
    fun l hl => (TreeInv.of_mem_links hg hl).2.2
  have hcost := hpos _ l hla
  -- the label of the head is the least cost
  have hlabel : d + (l.cost.get p).toNat = (g.getMinCost p s.visit).minCost.toNat := by
    have hd := hnew.exact l.b ((hu l.b).mpr (Or.inr hb))
    rw [hdb.unique hd, hc, if_pos hb]
  have hbnew : l.b ∉ s.visit.user := by
    obtain ⟨l', hl', heq⟩ := hb
    rw [← heq]
    exact (TreeInv.of_mem_links hg hl').2.2
  -- the tail is nearer than that, so it is visited
  have ha : l.a ∈ s.visit.user := by
    by_contra hna
    by_cases hin : ∃ l' ∈ (g.getMinCost p s.visit).links, l'.b = l.a
    · have hd := hnew.exact l.a ((hu l.a).mpr (Or.inr hin))
      have heq := hda.unique hd
      rw [hc, if_pos hin] at heq
      omega
    · have hout : l.a ∉ (s.round H p (g.getMinCost p s.visit)).visit.user := fun hv =>
        ((hu l.a).mp hv).elim hna hin
      have hlt := hnew.nearer l.b ((hu l.b).mpr (Or.inr hb)) l.a hout d hda.1
      rw [hc, if_pos hb] at hlt
      omega
  have hfront : (l.cost.get p + s.visit.cost l.a, l) ∈ g.frontier p s.visit :=
    AdjGraph.mem_frontier.mpr ⟨l.a, ha, hla, hbnew, rfl⟩
  have hsum : l.cost.get p + s.visit.cost l.a = (g.getMinCost p s.visit).minCost := by
    refine UInt32.toNat_inj.mp ?_
    rw [toNat_frontier_cost hwrap h.settled ha hla hbnew, ← hlabel,
      hda.unique (h.settled.exact l.a ha)]
  rw [hsum] at hfront
  have hbest : MinCost.Best (g.frontier p s.visit) (g.getMinCost p s.visit) := by
    refine MinCost.best (fun c l' hcl hc0 => ?_) (List.ne_nil_of_mem hfront)
    obtain ⟨a, ha', hla', hb', rfl⟩ := AdjGraph.mem_frontier.mp hcl
    have hsum' := toNat_frontier_cost hwrap h.settled ha' hla' hb'
    have hpos' := hpos a l' hla'
    rw [hc0, UInt32.toNat_zero] at hsum'
    omega
  exact (hbest.mem l).mpr hfront

theorem firstTight_forwardSet (hg : g.WF) (hu : u < g.userTab.length) (hpos : g.PosCost p)
    (hwrap : g.NoWrap p u) (H : AdjHash) : FirstTight H g p u (g.forwardSet H p u) := by
  have hall : ∀ e ∈ (g.forwardFrom H p u).fwd, ∀ l, Tight g p u l → l.b = e.link.b →
      LinkLe H p e.link l := by
    have hinv := forwardLoop_inv (H := H) (g := g) (p := p)
      (P := fun s => SearchInv g p u s ∧
        ∀ e ∈ s.fwd, ∀ l, Tight g p u l → l.b = e.link.b → LinkLe H p e.link l)
      (fun s h hm => ?_) g.userTab.length (FwdState.start u)
      ⟨⟨treeInv_start g hu, visitSettled_start hpos u, by simp [TightLabels, FwdState.start]⟩,
        by simp [FwdState.start]⟩
    · exact hinv.2
    · refine ⟨searchInv_round hg hpos hwrap H h.1 hm, fun e he l hl hb => ?_⟩
      rcases linkLe_round hg H s he with hin | ⟨hin, hle⟩
      · exact h.2 e hin l hl hb
      · exact hle l (mem_links_of_tight hg hpos hwrap H h.1 hm hl ⟨e.link, hin, hb.symm⟩) hb
  have hinv := searchInv_forwardFrom hg hu hpos hwrap H
  intro e he
  refine ⟨⟨hinv.tree.tree.link e he, _, hinv.settled.exact _ (hinv.tree.tail_mem he), ?_⟩,
    hall e he⟩
  rw [← hinv.tight e he]
  exact hinv.settled.exact _ ((hinv.tree.visited _).mpr (Or.inr ⟨e, he, rfl⟩))

/-- Of two links to one user that are both first, there is one. -/
theorem eq_of_linkLe (hg : g.WF) {H : AdjHash} {l l' : AdjLink} (hl : l ∈ g.links l.a)
    (hl' : l' ∈ g.links l'.a) (hb : l.b ≠ l.a) (hb' : l'.b ≠ l'.a) (h : LinkLe H p l l')
    (h' : LinkLe H p l' l) : l = l' := by
  obtain ⟨ha, hidx⟩ := h.antisymm h'
  obtain ⟨i, hi⟩ := List.mem_iff_getElem?.mp hl
  obtain ⟨j, hj⟩ := List.mem_iff_getElem?.mp hl'
  rw [hg.index _ i l hi hb, hg.index _ j l' hj hb'] at hidx
  rw [hidx, ha, hj] at hi
  exact (Option.some.inj hi).symm

theorem Tight.ne (hpos : g.PosCost p) {l : AdjLink} (h : Tight g p u l) : l.b ≠ l.a := by
  obtain ⟨hl, d, hda, hdb⟩ := h
  intro heq
  rw [heq] at hdb
  have heq := hda.unique hdb
  have hcost := hpos _ l hl
  omega

/-! ## The trees agree -/

theorem TreePath.end_eq {fwd : List AdjFwd} {v w : ℕ} {path : List AdjLink}
    (h : TreePath fwd u v path) (h' : TreePath fwd u w path) : v = w := by
  cases h with
  | root =>
    generalize hq : ([] : List AdjLink) = q at h'
    cases h' with
    | root => rfl
    | step => simp at hq
  | @step e path he hp =>
    generalize hq : path ++ [e.link] = q at h'
    cases h' with
    | root => simp at hq
    | @step e' path' he' hp' =>
      obtain ⟨-, hlink⟩ := List.append_inj' hq rfl
      rw [List.singleton_inj.mp hlink]

/-- The way to a user is the only one. -/
theorem FwdTree.path_unique {fwd : List AdjFwd} (ht : FwdTree g u fwd) {v : ℕ}
    {path path' : List AdjLink} (h : TreePath fwd u v path) (h' : TreePath fwd u v path') :
    path = path' := by
  induction h generalizing path' with
  | root =>
    generalize hw : u = w at h'
    cases h' with
    | root => rfl
    | @step e _ he _ => exact absurd hw.symm (ht.root e he)
  | @step e path he _ ih =>
    generalize hw : e.link.b = w at h'
    cases h' with
    | root => exact absurd hw (ht.root e he)
    | @step e' _ he' hp' =>
      obtain rfl : e = e' := List.inj_on_of_nodup_map ht.nodup he he' hw
      rw [ih hp']

/-- The way to a user begins with the way to the tail of each link on it. -/
theorem TreePath.upto {fwd : List AdjFwd} {v : ℕ} {path pre rest : List AdjLink} {l : AdjLink}
    (h : TreePath fwd u v path) (heq : path = pre ++ l :: rest) :
    TreePath fwd u l.a pre ∧ ∃ e ∈ fwd, e.link = l := by
  induction h generalizing rest with
  | root => simp at heq
  | @step e path he hp ih =>
    rcases List.eq_nil_or_concat rest with rfl | ⟨rest', x, rfl⟩
    · obtain ⟨rfl, hx⟩ := List.append_inj' heq rfl
      obtain rfl : e.link = l := List.singleton_inj.mp hx
      exact ⟨hp, e, he, rfl⟩
    · rw [List.concat_eq_append, ← List.cons_append, ← List.append_assoc] at heq
      exact ih (List.append_inj' heq rfl).1

theorem TreePath.lt (hg : g.WF) {H : AdjHash} (hu : u < g.userTab.length) {v : ℕ}
    {path : List AdjLink} (h : TreePath (g.forwardSet H p u) u v path) :
    v < g.userTab.length := by
  cases h with
  | root => exact hu
  | step he _ => exact hg.dest _ _ ((fwdTree_forwardSet hg H p hu).link _ he)

/-- What is tight for a node is tight for a root that has it on a shortest path. -/
theorem Tight.above {x : ℕ} {l : AdjLink} {dx db : ℕ} (h : Tight g p x l)
    (hx : IsDist (g.Edge p) u x dx) (hb : IsDist (g.Edge p) x l.b db)
    (hub : IsDist (g.Edge p) u l.b (dx + db)) : Tight g p u l := by
  obtain ⟨hl, d, hda, hdb⟩ := h
  have hedge : g.Edge p l.a l.b (l.cost.get p).toNat := ⟨l, hl, rfl, rfl⟩
  have hwalk := hx.1.trans hda.1
  obtain ⟨e, he⟩ := reaches_iff_exists_isDist.mp ⟨_, hwalk⟩
  have hle := he.2 _ hwalk
  have hge := hub.2 _ (he.1.snoc hedge)
  have heq := hb.unique hdb
  refine ⟨hl, e, he, ?_⟩
  rw [show e + (l.cost.get p).toNat = dx + db by omega]
  exact hub

/-- **The trees agree.** Below a node on the way, the tree of the root is the node's own. -/
theorem treePath_below (hg : g.WF) (hu : u < g.userTab.length) (hpos : g.PosCost p)
    (H : AdjHash) (hwrap : ∀ x, Reaches (g.Edge p) u x → g.NoWrap p x) {v : ℕ}
    {path : List AdjLink} (h : TreePath (g.forwardSet H p u) u v path) {x : ℕ}
    {pre post : List AdjLink} (hx : TreePath (g.forwardSet H p u) u x pre)
    (heq : path = pre ++ post) : TreePath (g.forwardSet H p x) x v post := by
  have hwu := hwrap u ⟨0, .nil⟩
  have hdx := isDist_treePath hg hu hpos hwu H hx
  have hwx := hwrap x ⟨_, hdx.1⟩
  induction h generalizing post with
  | root =>
    obtain ⟨rfl, rfl⟩ := List.append_eq_nil_iff.mp heq.symm
    obtain rfl := hx.end_eq .root
    exact .root
  | @step e path he hp ih =>
    rcases List.eq_nil_or_concat post with rfl | ⟨post', l, rfl⟩
    · rw [List.append_nil] at heq
      rw [← heq] at hx
      obtain rfl := hx.end_eq (.step he hp)
      exact .root
    · rw [List.concat_eq_append] at heq ⊢
      rw [← List.append_assoc] at heq
      obtain ⟨hpath, hl⟩ := List.append_inj' heq rfl
      obtain rfl : e.link = l := List.singleton_inj.mp hl
      have hpost := ih hpath
      have hxlt := hx.lt hg hu
      have hda := isDist_treePath hg hxlt hpos hwx H hpost
      have hub := isDist_treePath hg hu hpos hwu H (.step he hp)
      have hlink := (fwdTree_forwardSet hg H p hu).link e he
      have hedge : g.Edge p e.link.a e.link.b (e.link.cost.get p).toNat :=
        ⟨e.link, hlink, rfl, rfl⟩
      have hsum : linkSum p (path ++ [e.link]) =
          linkSum p pre + (linkSum p post' + (e.link.cost.get p).toNat) := by
        rw [hpath]
        simp [linkSum]
      rw [hsum] at hub
      -- what is left of the shortest path is shortest
      have hxb : IsDist (g.Edge p) x e.link.b (linkSum p post' + (e.link.cost.get p).toNat) :=
        ⟨hda.1.snoc hedge, fun c hw =>
          Nat.le_of_add_le_add_left (hub.2 _ (hdx.1.trans hw))⟩
      have hne : e.link.b ≠ x := by
        intro hbx
        rw [hbx] at hxb
        have hzero := hxb.unique isDist_self
        have hcost := hpos _ _ hlink
        omega
      obtain ⟨e', he', hb⟩ := ((shortestPathTree_of_wf H hg hxlt hpos hwx).spans e.link.b).mpr
        ⟨hne, _, hxb.1⟩
      obtain ⟨ht', hfirst'⟩ := firstTight_forwardSet hg hxlt hpos hwx H e' he'
      obtain ⟨ht, hfirst⟩ := firstTight_forwardSet hg hu hpos hwu H e he
      have hle' := hfirst' e.link ⟨hlink, _, hda, hxb⟩ hb.symm
      have hle := hfirst e'.link (ht'.above hdx (hb ▸ hxb) (hb ▸ hub)) hb
      have hsame := eq_of_linkLe hg ht'.1 ht.1 (ht'.ne hpos) (ht.ne hpos) hle' hle
      rw [← hsame] at hpost ⊢
      exact .step he' hpost

/-- The next hop of a node to a user is the first link of its tree on the way. -/
theorem nextHop_of_treePath (hg : g.WF) (hu : u < g.userTab.length) (H : AdjHash) {v : ℕ}
    {l : AdjLink} {rest : List AdjLink} (h : TreePath (g.forwardSet H p u) u v (l :: rest)) :
    g.nextHop H p u v = some l := by
  have ht := fwdTree_forwardSet hg H p hu
  obtain ⟨e, he, rfl⟩ : ∃ e ∈ g.forwardSet H p u, e.link.b = v := by
    generalize hq : l :: rest = q at h
    cases h with
    | root => simp at hq
    | step he _ => exact ⟨_, he, rfl⟩
  obtain ⟨l', rest', hpath, hl'⟩ := ht.src e he
  obtain ⟨rfl, -⟩ := List.cons.inj (ht.path_unique hpath h)
  have hfind : (g.forwardSet H p u).find? (fun e' => e'.link.b = e.link.b) = some e := by
    refine find?_of_unique he (by simp) fun e' he' hb => ?_
    exact List.inj_on_of_nodup_map ht.nodup he' he (by simpa using hb)
  rw [AdjGraph.nextHop, hfind]
  exact hl'

end

/-! ## What is forwarded -/

namespace AdjGraph

/-- The path that a node forwards a message of `src` on: path 0 if there is no `bloom_rt` of the
source on the path of the message. The source itself does not look. -/
def selectPath (H : AdjHash) (g : AdjGraph) (p : UInt16) (me src : ℕ) : UInt16 :=
  if me ≠ src ∧ p > 0 ∧ g.nextHop H p me src = none then 0 else p

/-- The links that have the bloom of a user with the subject, as `find_adjacent_routes` puts
them: `sub` has the users whose bloom matches. -/
def bloomLinks (H : AdjHash) (g : AdjGraph) (p : UInt16) (me : ℕ) (sub : ℕ → Bool) :
    List AdjLink :=
  ((List.range g.userTab.length).filter sub).filterMap (g.nextHop H p me)

/-- The links that `me` forwards a message of `src` on. -/
def subjectLinks (H : AdjHash) (g : AdjGraph) (p : UInt16) (src : ℕ) (sub : ℕ → Bool)
    (me : ℕ) : List AdjLink :=
  let path := g.selectPath H p me src
  (g.forwardLinks H path src me).filter fun l => l ∈ g.bloomLinks H path me sub

abbrev SubjectRun (H : AdjHash) (g : AdjGraph) (p : UInt16) (src : ℕ) (sub : ℕ → Bool) :
    ℕ → TreeFlood.Net ℕ AdjLink → Prop :=
  TreeFlood.Run AdjLink.b (g.subjectLinks H p src sub) src

theorem mem_bloomLinks {H : AdjHash} {g : AdjGraph} {p : UInt16} {me : ℕ} {sub : ℕ → Bool}
    {l : AdjLink} : l ∈ g.bloomLinks H p me sub ↔
      ∃ v, v < g.userTab.length ∧ sub v ∧ g.nextHop H p me v = some l := by
  simp only [bloomLinks, List.mem_filterMap, List.mem_filter, List.mem_range, and_assoc]

end AdjGraph

section

variable {g : AdjGraph} {p : UInt16} {src : ℕ} {sub : ℕ → Bool}

/-- A node with a way back to the source stays on the path of the message. -/
theorem selectPath_eq (hg : g.WF) (hpos : g.PosCost p) (H : AdjHash) {me : ℕ}
    (hme : me < g.userTab.length) (hwrap : g.NoWrap p me)
    (hback : p > 0 → Reaches (g.Edge p) me src) :
    g.selectPath H p me src = p := by
  rw [AdjGraph.selectPath, if_neg]
  rintro ⟨hne, hp, hnone⟩
  obtain ⟨_, _, l, _, _, _, hsome, _⟩ :=
    nextHop_tight H hg hme hpos hwrap (Ne.symm hne) (hback hp)
  rw [hsome] at hnone
  exact Option.some_ne_none l hnone

/-- Where the flood comes to, the links are those of the tree that the blooms are on. -/
theorem run_of_subjectRun (hg : g.WF) (hs : src < g.userTab.length) (hpos : g.PosCost p)
    (H : AdjHash) (hwrap : ∀ x, Reaches (g.Edge p) src x → g.NoWrap p x)
    (hback : p > 0 → ∀ x, Reaches (g.Edge p) src x → Reaches (g.Edge p) x src) {n : ℕ}
    {net : TreeFlood.Net ℕ AdjLink} (h : g.SubjectRun H p src sub n net) :
    TreeFlood.Run AdjLink.b (fun v => ((g.treeLinks H p src).filter fun l => l.a = v).filter
      fun l => l ∈ g.bloomLinks H p l.a sub) src n net := by
  refine TreeFlood.Run.congr (P := Reaches (g.Edge p) src) ⟨0, .nil⟩ (fun v hv => ?_)
    (fun v hv l hl => ?_) h
  · have hpath := selectPath_eq hg hpos H (reaches_lt hg hs hv) (hwrap v hv)
      fun hp => hback hp v hv
    rw [AdjGraph.subjectLinks, hpath]
    refine List.filter_congr fun l hl => ?_
    have ha : l.a = v := of_decide_eq_true (List.mem_filter.mp hl).2
    rw [ha]
  · obtain ⟨hmem, ha⟩ := List.mem_filter.mp (List.mem_filter.mp hl).1
    obtain rfl : l.a = v := of_decide_eq_true ha
    obtain ⟨e, he, rfl⟩ := List.mem_map.mp hmem
    obtain ⟨c, hw⟩ := hv
    exact ⟨_, hw.snoc ⟨e.link, (fwdTree_forwardSet hg H p hs).link e he, rfl, rfl⟩⟩

/-- All links on the way to a user with the subject are forwarded on. -/
theorem kept_of_treePath (hg : g.WF) (hs : src < g.userTab.length) (hpos : g.PosCost p)
    (H : AdjHash) (hwrap : ∀ x, Reaches (g.Edge p) src x → g.NoWrap p x) {v : ℕ}
    (hv : sub v = true) {path : List AdjLink} (h : TreePath (g.forwardSet H p src) src v path)
    {pre rest : List AdjLink} (heq : path = pre ++ rest) : ∀ l ∈ pre,
      TreeFlood.Kept AdjLink.a AdjLink.b src (g.treeLinks H p src)
        (fun l => l ∈ g.bloomLinks H p l.a sub) l := by
  induction pre using List.reverseRecOn generalizing rest with
  | nil => simp
  | append_singleton pre l ih =>
    rw [List.append_assoc, List.singleton_append] at heq
    have hprev := ih heq
    obtain ⟨hpre, e, he, rfl⟩ := h.upto heq
    have hbelow := treePath_below hg hs hpos H hwrap h hpre heq
    have hnext := nextHop_of_treePath hg (hpre.lt hg hs) H hbelow
    have hkeep : e.link ∈ g.bloomLinks H p e.link.a sub :=
      AdjGraph.mem_bloomLinks.mpr ⟨v, h.lt hg hs, hv, hnext⟩
    have htree : e.link ∈ g.treeLinks H p src := List.mem_map_of_mem he
    intro l' hl'
    rcases List.mem_append.mp hl' with hl' | hl'
    · exact hprev l' hl'
    · rw [List.mem_singleton.mp hl']
      generalize hw : e.link.a = w at hpre
      cases hpre with
      | root => exact .root htree hkeep hw
      | @step e' path' he' _ =>
        exact .next (hprev e'.link (by simp)) htree hkeep hw

/-- **A message gets to all that want it.** Its flood ends, nobody gets it twice and the source
never; at the end every user that the source reaches and that has the subject has it once; and
who gets it got it from a node that has a user with the subject on the link. -/
theorem subject_flood (H : AdjHash) (hg : g.Built) (hs : src < g.userTab.length)
    (hpos : g.PosCost p) (hwrap : ∀ x, Reaches (g.Edge p) src x → g.NoWrap p x)
    (hback : p > 0 → ∀ x, Reaches (g.Edge p) src x → Reaches (g.Edge p) x src) {n : ℕ}
    {net : TreeFlood.Net ℕ AdjLink} (h : g.SubjectRun H p src sub n net) :
    n < g.userTab.length ∧ (∀ v, net.recv.count v ≤ 1) ∧ net.recv.count src = 0 ∧
      (net.inflight = [] → ∀ v, v ≠ src → Reaches (g.Edge p) src v → sub v = true →
        net.recv.count v = 1) ∧
      ∀ v ∈ net.recv, ∃ l ∈ g.treeLinks H p src, l.b = v ∧
        ∃ w, sub w = true ∧ g.nextHop H p l.a w = some l := by
  have htree := floodTree hg.wf H p hs
  have hrun := run_of_subjectRun hg.wf hs hpos H hwrap hback h
  have hpruned := TreeFlood.run_pruned (fun _ => rfl) hrun
  have hnodup := TreeFlood.recv_nodup htree.pruned (fun _ => rfl) hpruned
  have hsrc := TreeFlood.root_not_mem_recv htree.pruned (fun _ => rfl) hpruned
  have hheads : ∀ v ∈ net.recv, ∃ l ∈ g.treeLinks H p src, l.b = v ∧
      l ∈ g.bloomLinks H p l.a sub := by
    intro v hv
    have hle := TreeFlood.recv_le htree.pruned (fun _ => rfl) hpruned
    obtain ⟨l, hl, rfl⟩ := List.mem_map.mp
      (Multiset.mem_coe.mp (Multiset.mem_of_le hle (Multiset.mem_coe.mpr hv)))
    obtain ⟨hin, hkeep⟩ := (TreeFlood.mem_pruned.mp hl).mem
    exact ⟨l, hin, rfl, hkeep⟩
  refine ⟨?_, List.nodup_iff_count_le_one.mp hnodup, List.count_eq_zero.mpr hsrc, ?_, ?_⟩
  · -- the source and the receivers are different users of the graph
    have hlt : ∀ v ∈ src :: net.recv, v < g.userTab.length := by
      intro v hv
      rcases List.mem_cons.mp hv with rfl | hv
      · exact hs
      · obtain ⟨l, hl, rfl, -⟩ := hheads v hv
        obtain ⟨e, he, rfl⟩ := List.mem_map.mp hl
        exact hg.wf.dest _ _ ((fwdTree_forwardSet hg.wf H p hs).link e he)
    have hlen := BitSpace.length_le_of_lt (List.nodup_cons.mpr ⟨hsrc, hnodup⟩) hlt
    rw [List.length_cons, TreeFlood.length_recv_run hrun] at hlen
    exact hlen
  · intro hdone v hne hreach hv
    refine List.count_eq_one_of_mem hnodup ?_
    rw [TreeFlood.mem_recv_of_pruned_done htree (fun _ => rfl) hrun hdone]
    have hspt := shortestPathTree_of_wf H hg.wf hs hpos (hwrap src ⟨0, .nil⟩)
    obtain ⟨e, he, rfl⟩ := (hspt.spans v).mpr ⟨hne, hreach⟩
    obtain ⟨l, rest, hpath, -⟩ := hspt.src e he
    have hkept := kept_of_treePath hg.wf hs hpos H hwrap hv hpath
      (List.append_nil (l :: rest)).symm
    -- the last link on the way leads to the user
    generalize hq : l :: rest = q at hpath hkept
    generalize hb : e.link.b = b at hpath
    cases hpath with
    | root => simp at hq
    | @step e' path _ _ => exact ⟨e'.link, hkept _ (by simp), rfl⟩
  · intro v hv
    obtain ⟨l, hl, hb, hkeep⟩ := hheads v hv
    obtain ⟨w, -, hw, hnext⟩ := AdjGraph.mem_bloomLinks.mp hkeep
    exact ⟨l, hl, hb, w, hw, hnext⟩

end

/-! ## A network -/

/-- `A` sends to `D` alone: the message goes over `B`, and `C` does not get it. -/
theorem subject_flood_square :
    ∃ n net, squareGraph.SubjectRun ⟨fun _ => 0, fun _ => 0⟩ 0 0 (· = 3) n net ∧
      net.inflight = [] ∧ net.recv.count 3 = 1 ∧ 2 ∉ net.recv := by
  let H : AdjHash := ⟨fun _ => 0, fun _ => 0⟩
  let ab : AdjLink := ⟨0, 1, "ab", "tcp", AdjCost.const 5, 0, 0, 0⟩
  let bd : AdjLink := ⟨1, 3, "bd", "tcp", AdjCost.const 5, 1, 4, 1⟩
  have hrun : squareGraph.SubjectRun H 0 0 (· = 3) 2 ⟨[], [1, 3]⟩ := by
    have hA : squareGraph.subjectLinks H 0 0 (· = 3) 0 = [] ++ ab :: [] := by decide +kernel
    have hB : [] ++ [] ++ squareGraph.subjectLinks H 0 0 (· = 3) ab.b = [] ++ bd :: [] := by
      decide +kernel
    have hD : [] ++ [] ++ squareGraph.subjectLinks H 0 0 (· = 3) bd.b = [] := by decide +kernel
    have h0 : squareGraph.SubjectRun H 0 0 (· = 3) 0
      ⟨squareGraph.subjectLinks H 0 0 (· = 3) 0, []⟩ := .start
    have h1 := @TreeFlood.Step.deliver _ _ AdjLink.b (squareGraph.subjectLinks H 0 0 (· = 3))
      [] ab [] []
    have h2 := @TreeFlood.Step.deliver _ _ AdjLink.b (squareGraph.subjectLinks H 0 0 (· = 3))
      [] bd [] [1]
    rw [← hA, hB] at h1
    rw [hD] at h2
    exact .step (.step h0 h1) h2
  have hlt : ∀ x, Reaches (squareGraph.Edge 0) 0 x → x < 4 := fun x hx =>
    reaches_lt squareGraph_built.wf (by decide) hx
  have hflood := @subject_flood squareGraph 0 0 (· = 3) H squareGraph_built (by decide)
    squareGraph_posCost (fun x hx => squareGraph_noWrap (hlt x hx))
    (fun hp => absurd hp (by decide)) _ _ hrun
  exact ⟨2, _, hrun, rfl, hflood.2.2.2.1 rfl 3 (by decide)
    (squareGraph_reaches (by decide) (by decide)) rfl, by decide⟩

end Raims
