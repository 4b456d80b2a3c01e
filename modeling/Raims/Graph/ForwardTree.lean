import Raims.Graph.Forward

/-!
# The forwarding set is a tree

The search from one root keeps `TreeInv`, which needs nothing of the costs:
whatever they are, the set is a tree of graph links that visits each user once,
and the loop ends. What the costs add is in `Raims.Graph.ShortestPath`.
-/

namespace Raims

/-- The links of a forwarding set from its root down to a user. -/
inductive TreePath (fwd : List AdjFwd) (u : ℕ) : ℕ → List AdjLink → Prop
  | root : TreePath fwd u u []
  | step {e : AdjFwd} {path : List AdjLink} : e ∈ fwd →
      TreePath fwd u e.link.a path → TreePath fwd u e.link.b (path ++ [e.link])

/-- `fwd` is a tree of links of `g` rooted at `u`, listed from the root down,
and `src` is the root's own link on the way to each user. -/
structure FwdTree (g : AdjGraph) (u : ℕ) (fwd : List AdjFwd) : Prop where
  link : ∀ e ∈ fwd, e.link ∈ g.links e.link.a
  nodup : (fwd.map fun e => e.link.b).Nodup
  root : ∀ e ∈ fwd, e.link.b ≠ u
  parent : ∀ pre e post, fwd = pre ++ e :: post →
    e.link.a = u ∨ ∃ e' ∈ pre, e'.link.b = e.link.a
  src : ∀ e ∈ fwd, ∃ l rest, TreePath fwd u e.link.b (l :: rest) ∧
    (g.links u)[e.src]? = some l

theorem TreePath.mono {fwd fwd' : List AdjFwd} {u v : ℕ} {path : List AdjLink}
    (hsub : fwd ⊆ fwd') (h : TreePath fwd u v path) : TreePath fwd' u v path := by
  induction h with
  | root => exact .root
  | step he _ ih => exact .step (hsub he) ih

/-! ## What `get_min_cost` returns -/

namespace AdjGraph

theorem mem_frontier {g : AdjGraph} {p : UInt16} {visit : AdjVisit}
    {c : UInt32} {l : AdjLink} :
    (c, l) ∈ g.frontier p visit ↔ ∃ a ∈ visit.user, l ∈ g.links a ∧
      l.b ∉ visit.user ∧ c = l.cost.get p + visit.cost a := by
  simp only [frontier, List.mem_flatMap, BitSpace.mem_toList, List.mem_map,
    List.mem_filter, decide_eq_true_eq, Prod.mk.injEq]
  constructor
  · rintro ⟨a, ha, l', ⟨hl, hb⟩, hc, rfl⟩
    exact ⟨a, ha, hl, hb, hc.symm⟩
  · rintro ⟨a, ha, hl, hb, rfl⟩
    exact ⟨a, ha, l, ⟨hl, hb⟩, rfl, rfl⟩

end AdjGraph

namespace MinCost

def ofList (cands : List (UInt32 × AdjLink)) : MinCost :=
  cands.foldl (fun m cl => m.offer cl.1 cl.2) init

theorem ofList_snoc (cands : List (UInt32 × AdjLink)) (c : UInt32) (l : AdjLink) :
    ofList (cands ++ [(c, l)]) = (ofList cands).offer c l := by
  unfold ofList
  rw [List.foldl_append]
  rfl

theorem getMinCost_eq (g : AdjGraph) (p : UInt16) (visit : AdjVisit) :
    g.getMinCost p visit = ofList (g.frontier p visit) := rfl

/-- What holds of the collected links for any costs. -/
structure Collected (cands : List (UInt32 × AdjLink)) (m : MinCost) : Prop where
  sub : ∀ l ∈ m.links, ∃ c, (c, l) ∈ cands
  dup : ∀ b, b ∈ m.dup ↔ ∃ l ∈ m.links, l.b = b
  nodup : m.dupCount = 0 → (m.links.map AdjLink.b).Nodup
  nonempty : m.links = [] → m.minCost = 0

theorem collected (cands : List (UInt32 × AdjLink)) :
    Collected cands (ofList cands) := by
  induction cands using List.reverseRecOn with
  | nil => exact ⟨by simp [ofList, init], by simp [ofList, init],
      by simp [ofList, init], by simp [ofList, init]⟩
  | append_singleton cands cl ih =>
    obtain ⟨c, l⟩ := cl
    rw [ofList_snoc]
    unfold offer
    have hold : ∀ l' ∈ (ofList cands).links, ∃ c', (c', l') ∈ cands ++ [(c, l)] :=
      fun l' hl' => (ih.sub l' hl').imp fun _ h => List.mem_append_left _ h
    split
    · exact ⟨by simp, by simp [eq_comm], by simp, by simp⟩
    · split
      · refine ⟨?_, ?_, ?_, by simp⟩
        · intro l' hl'
          rcases List.mem_append.mp hl' with hl' | hl'
          · exact hold l' hl'
          · exact ⟨c, by simp [List.mem_singleton.mp hl']⟩
        · intro b
          simp only [Finset.mem_insert, ih.dup, List.mem_append,
            List.mem_singleton]
          constructor
          · rintro (rfl | ⟨l', hl', rfl⟩)
            · exact ⟨l, Or.inr rfl, rfl⟩
            · exact ⟨l', Or.inl hl', rfl⟩
          · rintro ⟨l', hl' | rfl, rfl⟩
            · exact Or.inr ⟨l', hl', rfl⟩
            · exact Or.inl rfl
        · intro h0
          simp only at h0
          split at h0
          · omega
          · next hdup =>
              rw [List.map_append, List.nodup_append]
              refine ⟨ih.nodup h0, by simp, ?_⟩
              intro b hb b' hb' heq
              obtain ⟨l', hl', rfl⟩ := List.mem_map.mp hb
              rw [List.map_singleton, List.mem_singleton] at hb'
              exact hdup ((ih.dup _).mpr ⟨l', hl', heq.trans hb'⟩)
      · exact ⟨hold, ih.dup, ih.nodup, ih.nonempty⟩

/-- With no zero cost among them, the least of the costs and every link that
has it. -/
structure Best (cands : List (UInt32 × AdjLink)) (m : MinCost) : Prop where
  pos : m.minCost ≠ 0
  le : ∀ c l, (c, l) ∈ cands → m.minCost ≤ c
  mem : ∀ l, l ∈ m.links ↔ (m.minCost, l) ∈ cands

theorem best {cands : List (UInt32 × AdjLink)}
    (hpos : ∀ c l, (c, l) ∈ cands → c ≠ 0) (hne : cands ≠ []) :
    Best cands (ofList cands) := by
  induction cands using List.reverseRecOn with
  | nil => exact absurd rfl hne
  | append_singleton cands cl ih =>
    obtain ⟨c, l⟩ := cl
    have hc : c ≠ 0 := hpos c l (by simp)
    rw [ofList_snoc]
    by_cases hnil : cands = []
    · subst hnil
      refine ⟨?_, ?_, ?_⟩ <;> simp [ofList, init, offer, hc]
    · have hb := ih (fun c' l' h => hpos c' l' (List.mem_append_left _ h)) hnil
      unfold offer
      split
      · next hlt =>
          have hlt : c < (ofList cands).minCost := hlt.resolve_right hb.pos
          refine ⟨hc, ?_, ?_⟩
          · intro c' l' h
            simp only [List.mem_append, List.mem_singleton, Prod.mk.injEq] at h
            rcases h with h | ⟨rfl, -⟩
            · exact UInt32.le_of_lt (UInt32.lt_of_lt_of_le hlt (hb.le c' l' h))
            · exact UInt32.le_refl _
          · intro l'
            simp only [List.mem_singleton, List.mem_append, Prod.mk.injEq,
              true_and]
            refine ⟨Or.inr, ?_⟩
            rintro (h | h)
            · exact absurd (hb.le c l' h) (UInt32.not_le.mpr hlt)
            · exact h
      · next hlt =>
          have hge : (ofList cands).minCost ≤ c :=
            UInt32.not_lt.mp fun h => hlt (Or.inl h)
          have hle : ∀ c' l', (c', l') ∈ cands ++ [(c, l)] →
              (ofList cands).minCost ≤ c' := by
            intro c' l' h
            simp only [List.mem_append, List.mem_singleton, Prod.mk.injEq] at h
            rcases h with h | ⟨rfl, -⟩
            · exact hb.le c' l' h
            · exact hge
          split
          · next heq =>
              subst heq
              refine ⟨hb.pos, hle, fun l' => ?_⟩
              simp only [List.mem_append, hb.mem, List.mem_singleton,
                Prod.mk.injEq, true_and]
          · next hne =>
              refine ⟨hb.pos, hle, fun l' => ?_⟩
              simp only [List.mem_append, hb.mem, List.mem_singleton,
                Prod.mk.injEq, Ne.symm hne, false_and, or_false]

end MinCost

theorem sortLinks_perm (H : AdjHash) (p : UInt16) (links : List AdjLink) :
    (sortLinks H p links).Perm links := by
  unfold sortLinks
  refine ((List.perm_insertionSort _ _).map Prod.snd).trans ?_
  rw [List.map_map]
  exact List.Perm.of_eq (by simp [Function.comp_def])

/-! ## The tree invariant -/

/-- The visited users are the root and the heads of the tree links; only the
root has cost zero. -/
structure TreeInv (g : AdjGraph) (u : ℕ) (s : FwdState) : Prop where
  tree : FwdTree g u s.fwd
  visited : ∀ v, v ∈ s.visit.user ↔ v = u ∨ ∃ e ∈ s.fwd, e.link.b = v
  bound : ∀ v ∈ s.visit.user, v < g.userTab.length
  rootCost : s.visit.cost u = 0
  label : ∀ e ∈ s.fwd, s.visit.cost e.link.b = e.cost ∧ e.cost ≠ 0 ∧
    s.visit.src e.link.b = e.src

theorem FwdTree.snoc {g : AdjGraph} {u : ℕ} {fwd : List AdjFwd} {e : AdjFwd}
    (h : FwdTree g u fwd) (hl : e.link ∈ g.links e.link.a) (hu : e.link.b ≠ u)
    (hnew : ∀ e' ∈ fwd, e'.link.b ≠ e.link.b)
    (hpar : e.link.a = u ∨ ∃ e' ∈ fwd, e'.link.b = e.link.a)
    (hsrc : ∃ l rest, TreePath (fwd ++ [e]) u e.link.b (l :: rest) ∧
      (g.links u)[e.src]? = some l) : FwdTree g u (fwd ++ [e]) where
  link := by
    intro e' he'
    rcases List.mem_append.mp he' with he' | he'
    · exact h.link e' he'
    · rwa [List.mem_singleton.mp he']
  nodup := by
    rw [List.map_append, List.nodup_append]
    refine ⟨h.nodup, by simp, ?_⟩
    intro b hb b' hb' heq
    obtain ⟨e', he', rfl⟩ := List.mem_map.mp hb
    rw [List.map_singleton, List.mem_singleton] at hb'
    exact hnew e' he' (heq.trans hb')
  root := by
    intro e' he'
    rcases List.mem_append.mp he' with he' | he'
    · exact h.root e' he'
    · rwa [List.mem_singleton.mp he']
  parent := by
    intro pre e' post heq
    rcases List.eq_nil_or_concat post with rfl | ⟨post', x, rfl⟩
    · obtain ⟨rfl, hx⟩ := List.append_inj' heq rfl
      obtain rfl : e = e' := by simpa using hx
      exact hpar
    · rw [List.concat_eq_append, ← List.cons_append, ← List.append_assoc] at heq
      obtain ⟨heq, -⟩ := List.append_inj' heq rfl
      exact h.parent pre e' post' heq
  src := by
    intro e' he'
    rcases List.mem_append.mp he' with he' | he'
    · obtain ⟨l, rest, hp, hl⟩ := h.src e' he'
      exact ⟨l, rest, hp.mono (List.subset_append_left _ _), hl⟩
    · rw [List.mem_singleton.mp he']
      exact hsrc

theorem treeInv_start (g : AdjGraph) {u : ℕ} (hu : u < g.userTab.length) :
    TreeInv g u (FwdState.start u) where
  tree := ⟨by simp [FwdState.start], by simp [FwdState.start],
    by simp [FwdState.start], by simp [FwdState.start], by simp [FwdState.start]⟩
  visited := by simp [FwdState.start]
  bound := by simpa [FwdState.start] using hu
  rootCost := rfl
  label := by simp [FwdState.start]

namespace TreeInv

variable {g : AdjGraph} {u : ℕ} {s : FwdState}

/-- `add_fwd_set` of a link that leaves the visited set. -/
theorem addFwdSet (h : TreeInv g u s) (hg : g.WF) {cost : UInt32} {l : AdjLink}
    (hl : l ∈ g.links l.a) (ha : l.a ∈ s.visit.user) (hb : l.b ∉ s.visit.user)
    (hc : cost ≠ 0) : TreeInv g u (s.addFwdSet cost l) := by
  have hbu : l.b ≠ u := fun hbu => hb ((h.visited l.b).mpr (Or.inl hbu))
  have hnew : ∀ e ∈ s.fwd, e.link.b ≠ l.b :=
    fun e he heq => hb ((h.visited l.b).mpr (Or.inr ⟨e, he, heq⟩))
  have hne : l.b ≠ l.a := fun heq => hb (heq ▸ ha)
  have hpar := (h.visited l.a).mp ha
  refine ⟨h.tree.snoc hl hbu hnew hpar ?_, ?_, ?_, ?_, ?_⟩
  · rcases hpar with hau | ⟨e, he, hea⟩
    · -- a link of the root itself: the path is this link alone
      obtain ⟨j, hj⟩ := List.mem_iff_getElem?.mp hl
      refine ⟨l, [], @TreePath.step _ _ ⟨l, cost, _⟩ [] (by simp) ?_, ?_⟩
      · rw [show (⟨l, cost, _⟩ : AdjFwd).link.a = u from hau]
        exact .root
      · simp only [hau, h.rootCost, if_true]
        rw [hg.index l.a j l hj hne, ← hau]
        exact hj
    · -- the path to the parent, extended by this link
      obtain ⟨l', rest, hp, hl'⟩ := h.tree.src e he
      obtain ⟨hcost, hpos, hsrc⟩ := h.label e he
      refine ⟨l', rest ++ [l], ?_, ?_⟩
      · refine @TreePath.step _ _ ⟨l, cost, _⟩ (l' :: rest) (by simp) ?_
        rw [show (⟨l, cost, _⟩ : AdjFwd).link.a = e.link.b from hea.symm]
        exact hp.mono (List.subset_append_left _ _)
      · rw [hea] at hcost hsrc
        simp only [hcost, hpos, if_false, hsrc]
        exact hl'
  · intro v
    simp only [FwdState.addFwdSet, Finset.mem_insert, h.visited, List.mem_append,
      List.mem_singleton]
    constructor
    · rintro (rfl | rfl | ⟨e, he, rfl⟩)
      · exact Or.inr ⟨_, Or.inr rfl, rfl⟩
      · exact Or.inl rfl
      · exact Or.inr ⟨e, Or.inl he, rfl⟩
    · rintro (rfl | ⟨e, he | rfl, rfl⟩)
      · exact Or.inr (Or.inl rfl)
      · exact Or.inr (Or.inr ⟨e, he, rfl⟩)
      · exact Or.inl rfl
  · intro v hv
    rcases Finset.mem_insert.mp hv with rfl | hv
    · exact hg.dest _ _ hl
    · exact h.bound v hv
  · simp only [FwdState.addFwdSet, Function.update_of_ne (Ne.symm hbu)]
    exact h.rootCost
  · intro e he
    rcases List.mem_append.mp he with he | he
    · simp only [FwdState.addFwdSet, Function.update_of_ne (hnew e he)]
      exact h.label e he
    · rw [List.mem_singleton.mp he]
      simp [FwdState.addFwdSet, hc]

/-- The first form of a round: the heads are distinct, so none is visited when
its link is added. -/
theorem foldl_addFwdSet (hg : g.WF) {cost : UInt32} (hc : cost ≠ 0) :
    ∀ {links : List AdjLink} {s : FwdState}, TreeInv g u s →
      (∀ l ∈ links, l ∈ g.links l.a ∧ l.a ∈ s.visit.user ∧ l.b ∉ s.visit.user) →
      (links.map AdjLink.b).Nodup →
      TreeInv g u (links.foldl (fun s l => s.addFwdSet cost l) s)
  | [], _, h, _, _ => h
  | l :: links, s, h, hl, hnd => by
      obtain ⟨hl0, ha0, hb0⟩ := hl l List.mem_cons_self
      rw [List.map_cons, List.nodup_cons] at hnd
      rw [List.foldl_cons]
      refine foldl_addFwdSet hg hc (h.addFwdSet hg hl0 ha0 hb0 hc) ?_ hnd.2
      intro l' hl'
      obtain ⟨hl1, ha1, hb1⟩ := hl l' (List.mem_cons_of_mem _ hl')
      refine ⟨hl1, Finset.mem_insert_of_mem ha1, ?_⟩
      simp only [FwdState.addFwdSet, Finset.mem_insert, not_or]
      exact ⟨fun heq => hnd.1 (heq ▸ List.mem_map_of_mem hl'), hb1⟩

/-- The second form of a round. -/
theorem foldl_addFwdNew (hg : g.WF) {cost : UInt32} (hc : cost ≠ 0) :
    ∀ {links : List AdjLink} {s : FwdState}, TreeInv g u s →
      (∀ l ∈ links, l ∈ g.links l.a ∧ l.a ∈ s.visit.user) →
      TreeInv g u (links.foldl (fun s l => s.addFwdNew cost l) s)
  | [], _, h, _ => h
  | l :: links, s, h, hl => by
      obtain ⟨hl0, ha0⟩ := hl l List.mem_cons_self
      have hrest := fun l' hl' => hl l' (List.mem_cons_of_mem l hl')
      rw [List.foldl_cons]
      unfold FwdState.addFwdNew
      split
      · exact foldl_addFwdNew hg hc h hrest
      · next hb =>
          exact foldl_addFwdNew hg hc (h.addFwdSet hg hl0 ha0 hb hc)
            fun l' hl' => ⟨(hrest l' hl').1, Finset.mem_insert_of_mem (hrest l' hl').2⟩

theorem setMaxAlt (h : TreeInv g u s) (n : ℕ) : TreeInv g u { s with maxAlt := n } :=
  ⟨h.tree, h.visited, h.bound, h.rootCost, h.label⟩

/-- The links `get_min_cost` collects leave the visited set. -/
theorem of_mem_links (hg : g.WF) {p : UInt16} {visit : AdjVisit} {l : AdjLink}
    (hl : l ∈ (g.getMinCost p visit).links) :
    l ∈ g.links l.a ∧ l.a ∈ visit.user ∧ l.b ∉ visit.user := by
  obtain ⟨c, hc⟩ := (MinCost.collected _).sub l hl
  obtain ⟨a, ha, hla, hb, -⟩ := AdjGraph.mem_frontier.mp hc
  rw [hg.source a l hla]
  exact ⟨hla, ha, hb⟩

theorem round (h : TreeInv g u s) (hg : g.WF) (H : AdjHash) {p : UInt16}
    (hc : (g.getMinCost p s.visit).minCost ≠ 0) :
    TreeInv g u (s.round H p (g.getMinCost p s.visit)) := by
  unfold FwdState.round
  split
  · next hdup =>
      exact foldl_addFwdSet hg hc h (fun l hl => of_mem_links hg hl)
        ((MinCost.collected _).nodup hdup)
  · refine foldl_addFwdNew hg hc (h.setMaxAlt _) fun l hl => ?_
    obtain ⟨hla, ha, -⟩ := of_mem_links hg ((sortLinks_perm H p _).mem_iff.mp hl)
    exact ⟨hla, ha⟩

end TreeInv

/-! ## What a round does to the visited set and its labels -/

namespace FwdState

theorem visit_foldl_addFwdSet (cost : UInt32) :
    ∀ (links : List AdjLink) (s : FwdState),
      (∀ v, v ∈ (links.foldl (fun s l => s.addFwdSet cost l) s).visit.user ↔
        v ∈ s.visit.user ∨ ∃ l ∈ links, l.b = v) ∧
      ∀ v, (links.foldl (fun s l => s.addFwdSet cost l) s).visit.cost v =
        if ∃ l ∈ links, l.b = v then cost else s.visit.cost v
  | [], s => by simp
  | l :: links, s => by
      obtain ⟨hu, hc⟩ := visit_foldl_addFwdSet cost links (s.addFwdSet cost l)
      rw [List.foldl_cons]
      refine ⟨fun v => ?_, fun v => ?_⟩
      · rw [hu]
        simp only [addFwdSet, Finset.mem_insert, List.exists_mem_cons_iff]
        tauto
      · rw [hc]
        by_cases hv : l.b = v
        · subst hv
          simp [addFwdSet]
        · simp [addFwdSet, hv, Function.update_of_ne (Ne.symm hv)]

theorem visit_foldl_addFwdNew (cost : UInt32) :
    ∀ (links : List AdjLink) (s : FwdState),
      (∀ v, v ∈ (links.foldl (fun s l => s.addFwdNew cost l) s).visit.user ↔
        v ∈ s.visit.user ∨ ∃ l ∈ links, l.b = v) ∧
      ∀ v, (links.foldl (fun s l => s.addFwdNew cost l) s).visit.cost v =
        if v ∉ s.visit.user ∧ ∃ l ∈ links, l.b = v then cost
        else s.visit.cost v
  | [], s => by simp
  | l :: links, s => by
      rw [List.foldl_cons]
      by_cases hb : l.b ∈ s.visit.user
      · obtain ⟨hu, hc⟩ := visit_foldl_addFwdNew cost links s
        rw [show s.addFwdNew cost l = s from if_pos hb]
        refine ⟨fun v => ?_, fun v => ?_⟩
        · rw [hu, List.exists_mem_cons_iff]
          constructor
          · exact Or.imp_right Or.inr
          · rintro (h | rfl | h)
            · exact Or.inl h
            · exact Or.inl hb
            · exact Or.inr h
        · rw [hc]
          by_cases hv : l.b = v
          · subst hv
            simp [hb]
          · simp [hv]
      · obtain ⟨hu, hc⟩ := visit_foldl_addFwdNew cost links (s.addFwdSet cost l)
        rw [show s.addFwdNew cost l = s.addFwdSet cost l from if_neg hb]
        refine ⟨fun v => ?_, fun v => ?_⟩
        · rw [hu]
          simp only [addFwdSet, Finset.mem_insert, List.exists_mem_cons_iff]
          tauto
        · rw [hc]
          by_cases hv : l.b = v
          · subst hv
            simp [addFwdSet, hb]
          · simp [addFwdSet, hv, Ne.symm hv]

/-- Either form of a round visits the heads of the collected links, at the
least cost, and leaves the other labels alone. -/
theorem visit_round (H : AdjHash) (p : UInt16) (s : FwdState) (m : MinCost)
    (hout : ∀ l ∈ m.links, l.b ∉ s.visit.user) :
    (∀ v, v ∈ (s.round H p m).visit.user ↔
      v ∈ s.visit.user ∨ ∃ l ∈ m.links, l.b = v) ∧
    ∀ v, (s.round H p m).visit.cost v =
      if ∃ l ∈ m.links, l.b = v then m.minCost else s.visit.cost v := by
  unfold round
  split
  · exact visit_foldl_addFwdSet m.minCost m.links s
  · obtain ⟨hu, hc⟩ := visit_foldl_addFwdNew m.minCost (sortLinks H p m.links)
      { s with maxAlt := max s.maxAlt m.dupCount }
    have hmem : ∀ v, (∃ l ∈ sortLinks H p m.links, l.b = v) ↔
        ∃ l ∈ m.links, l.b = v := by
      intro v
      simp only [(sortLinks_perm H p m.links).mem_iff]
    refine ⟨fun v => ?_, fun v => ?_⟩
    · rw [hu, hmem]
    · rw [hc]
      refine if_congr ?_ rfl rfl
      rw [hmem]
      refine ⟨And.right, fun h => ⟨?_, h⟩⟩
      obtain ⟨l, hl, rfl⟩ := h
      exact hout l hl

end FwdState

/-! ## The loop -/

/-- What every round preserves holds at the end of the search. -/
theorem forwardLoop_inv {H : AdjHash} {g : AdjGraph} {p : UInt16}
    {P : FwdState → Prop}
    (hstep : ∀ s, P s → (g.getMinCost p s.visit).minCost ≠ 0 →
      P (s.round H p (g.getMinCost p s.visit))) :
    ∀ (fuel : ℕ) (s : FwdState), P s → P (g.forwardLoop H p fuel s)
  | 0, _, h => h
  | fuel + 1, s, h => by
      unfold AdjGraph.forwardLoop
      simp only
      split
      · exact h
      · split
        · exact h
        · next hm => exact forwardLoop_inv hstep fuel _ (hstep s h hm)

/-- The loop is at one of its two exits: all users are visited or
`get_min_cost` returned zero. -/
def SearchDone (g : AdjGraph) (p : UInt16) (s : FwdState) : Prop :=
  s.visit.user.card = g.userTab.length ∨ (g.getMinCost p s.visit).minCost = 0

/-- A round visits at least one more user. -/
theorem card_lt_card_round {g : AdjGraph} (hg : g.WF) (H : AdjHash)
    {p : UInt16} {s : FwdState}
    (hm : (g.getMinCost p s.visit).minCost ≠ 0) :
    s.visit.user.card < (s.round H p (g.getMinCost p s.visit)).visit.user.card := by
  have hout : ∀ l ∈ (g.getMinCost p s.visit).links, l.b ∉ s.visit.user :=
    fun l hl => (TreeInv.of_mem_links hg hl).2.2
  obtain ⟨hu, -⟩ := FwdState.visit_round H p s _ hout
  obtain ⟨l, hl⟩ := List.exists_mem_of_ne_nil _
    fun hnil => hm ((MinCost.collected _).nonempty hnil)
  apply Finset.card_lt_card
  refine ⟨fun v hv => (hu v).mpr (Or.inl hv), fun hsub => ?_⟩
  exact hout l hl (hsub ((hu l.b).mpr (Or.inr ⟨l, hl, rfl⟩)))

/-- As many rounds as there are unvisited users bring the loop to an exit. -/
theorem forwardLoop_done {g : AdjGraph} (hg : g.WF) {u : ℕ} (H : AdjHash)
    {p : UInt16} : ∀ (fuel : ℕ) (s : FwdState), TreeInv g u s →
      g.userTab.length ≤ s.visit.user.card + fuel →
      SearchDone g p (g.forwardLoop H p fuel s)
  | 0, s, h, hf => by
      have hle : s.visit.user.card ≤ g.userTab.length := by
        rw [← Finset.card_range g.userTab.length]
        exact Finset.card_le_card fun v hv => Finset.mem_range.mpr (h.bound v hv)
      exact Or.inl (Nat.le_antisymm hle hf)
  | fuel + 1, s, h, hf => by
      unfold AdjGraph.forwardLoop
      simp only
      split
      · next hc => exact Or.inl hc
      · split
        · next hm => exact Or.inr hm
        · next hm =>
            have hlt := card_lt_card_round hg H hm
            exact forwardLoop_done hg H fuel _ (h.round hg H hm) (by omega)

theorem treeInv_forwardFrom {g : AdjGraph} (hg : g.WF) (H : AdjHash) (p : UInt16)
    {u : ℕ} (hu : u < g.userTab.length) : TreeInv g u (g.forwardFrom H p u) :=
  forwardLoop_inv (fun _ h hm => h.round hg H hm) _ _ (treeInv_start g hu)

theorem searchDone_forwardFrom {g : AdjGraph} (hg : g.WF) (H : AdjHash)
    (p : UInt16) {u : ℕ} (hu : u < g.userTab.length) :
    SearchDone g p (g.forwardFrom H p u) :=
  forwardLoop_done hg H _ _ (treeInv_start g hu) (Nat.le_add_left _ _)

/-- Whatever the costs, the forwarding set of a user is a tree rooted at it. -/
theorem fwdTree_forwardSet {g : AdjGraph} (hg : g.WF) (H : AdjHash) (p : UInt16)
    {u : ℕ} (hu : u < g.userTab.length) : FwdTree g u (g.forwardSet H p u) :=
  (treeInv_forwardFrom hg H p hu).tree

end Raims
