import Raims.Graph.MeshRoundTrip

/-!
# All statements of a graph

The links of each type are printed and read back by themselves. So those of a graph are read
back as they were when the text can tell its stars, its meshes and the costs.
-/

namespace Raims

namespace PrintGraph

open StrikeOff (hasKey hasKey_iff)

variable {g : AdjGraph} {l : AdjLink}

/-! ## The graphs -/

/-- Connections, each a link both ways, of the three types. -/
structure Paired (g : AdjGraph) : Prop where
  wf : g.WF
  types : ∀ l ∈ allLinks g, l.type = "tcp" ∨ l.type = "mesh" ∨ l.type = "pgm"
  conns : ∃ cs : List ((ℕ × ℕ) × LinkKind),
    ((allLinks g).map fun l => (ends l, kindOf l)).Perm (cs ++ cs.map fun c => (c.1.swap, c.2))

theorem Paired.empty (pathLimit : ℕ) : Paired (.empty pathLimit) where
  wf := (AdjGraph.Built.empty pathLimit).wf
  types := List.forall_mem_nil _
  conns := ⟨[], .nil⟩

theorem Paired.addConn (h : Paired g) {i j : ℕ} (hi : i < g.userTab.length)
    (hj : j < g.userTab.length) (tport : String) {type : String}
    (htype : type = "tcp" ∨ type = "mesh" ∨ type = "pgm") (cost : AdjCost) :
    Paired (g.addConn i j tport type cost) := by
  obtain ⟨l, l', hl, hl', hall⟩ := allLinks_addConn hi hj tport type cost
  obtain ⟨cs, hcs⟩ := h.conns
  refine ⟨h.wf.addConn hi hj _ _ _, fun k hk => ?_, ((i, j), type, tport, cost) :: cs, ?_⟩
  · have htypes : l.type = type ∧ l'.type = type := by
      simp only [Prod.mk.injEq, kindOf] at hl hl'
      exact ⟨hl.2.2.1, hl'.2.2.1⟩
    rcases List.mem_cons.1 (hall.subset hk) with rfl | hk
    · rwa [htypes.2]
    · rcases List.mem_cons.1 hk with rfl | hk
      · rwa [htypes.1]
      · exact h.types k hk
  · have hfirst : (ends l, kindOf l) = ((i, j), type, tport, cost) := by
      simp only [Prod.mk.injEq] at hl
      rw [ends, hl.1, hl.2.1, hl.2.2]
    have hback : (ends l', kindOf l') = ((j, i), type, tport, cost) := by
      simp only [Prod.mk.injEq] at hl'
      rw [ends, hl'.1, hl'.2.1, hl'.2.2]
    refine (hall.map _).trans ?_
    rw [List.map_cons, List.map_cons, hfirst, hback, List.map_cons, List.cons_append]
    refine (List.Perm.swap _ _ _).trans (.cons _ ?_)
    exact (hcs.cons _).trans List.perm_middle.symm

theorem Paired.addUser (h : Paired g) (user : String) (uid : ℕ) :
    Paired (g.addUser user uid).1 := by
  refine ⟨h.wf.addUser user uid, ?_, ?_⟩
  · rw [allLinks_addUser]
    exact h.types
  · rw [allLinks_addUser]
    exact h.conns

theorem sourceSorted_allLinks (h : g.WF) : SourceSorted (allLinks g) := by
  rw [SourceSorted, allLinks, List.pairwise_flatMap]
  have hsource : ∀ {i} (hi : i < g.userTab.length), ∀ l ∈ g.userTab[i].links, l.a = i := by
    intro i hi l hl
    refine h.source i l ?_
    rwa [AdjGraph.links, List.getElem?_eq_getElem hi]
  constructor
  · intro u hu
    obtain ⟨i, hi, rfl⟩ := List.mem_iff_getElem.1 hu
    refine List.pairwise_of_forall_mem_list fun l hl l' hl' => ?_
    rw [hsource hi l hl, hsource hi l' hl']
  · rw [List.pairwise_iff_getElem]
    intro i j hi hj hij l hl l' hl'
    rw [hsource hi l hl, hsource hj l' hl']
    exact Nat.le_of_lt hij

theorem Paired.pairedTable (h : Paired g) : PairedTable (allLinks g) := by
  obtain ⟨cs, hcs⟩ := h.conns
  have hbetween : ∀ x y, between (allLinks g) x y =
      (((cs.filter fun c => c.1 = (x, y)).map (·.2) : List LinkKind) : Multiset LinkKind) +
        ((cs.filter fun c => c.1 = (y, x)).map (·.2) : List LinkKind) := by
    intro x y
    have hkinds : ((allLinks g).filter (hasKey ends (x, y))).map kindOf =
        (((allLinks g).map fun l => (ends l, kindOf l)).filter fun c => c.1 = (x, y)).map
          (·.2) := by
      rw [List.filter_map, List.map_map]
      rfl
    have hswap : (cs.filter fun c => c.1.swap = (x, y)) = cs.filter fun c => c.1 = (y, x) :=
      List.filter_congr fun c _ => by
        rw [decide_eq_decide, Prod.swap_eq_iff_eq_swap, Prod.swap_prod_mk]
    rw [between, hkinds, Multiset.coe_add, Multiset.coe_eq_coe, ← hswap]
    refine ((hcs.filter _).map _).trans (.of_eq ?_)
    rw [List.filter_append, List.map_append, List.filter_map, List.map_map]
    rfl
  refine ⟨sourceSorted_allLinks h.wf, fun x y => ?_, fun x => ⟨_, hbetween x x⟩⟩
  rw [hbetween, hbetween, add_comm]

/-! ## What is printed -/

/-- The connections of all lines, as they are read back. -/
def printed (g : AdjGraph) : List AdjLink :=
  (printedTcp (table g "tcp")).map (readLink (table g "tcp")) ++ printedMesh (table g "mesh") ++
    printedMesh (table g "pgm")

theorem mem_table {type : String} : l ∈ table g type ↔ l ∈ allLinks g ∧ l.type = type := by
  rw [table, List.mem_filter, decide_eq_true_eq]

theorem conns_printStatements (g : AdjGraph) :
    (printStatements g).flatMap Line.conns = (printed g).map (toConn g) := by
  rw [printStatements, List.flatMap_append, List.flatMap_append,
    conns_printTcp g fun l hl => (mem_table.1 hl).2,
    conns_printMesh g fun l hl => .inl (mem_table.1 hl).2,
    conns_printMesh g fun l hl => .inr (mem_table.1 hl).2, printed, List.map_append,
    List.map_append, List.map_map]
  rfl

/-- What the text can tell of a graph. -/
structure Printable (g : AdjGraph) : Prop where
  tcp : StarsAgree (table g "tcp")
  mesh : ∀ t, MeshAgrees ((table g "mesh").filter fun l => l.tport = t)
  pgm : ∀ t, MeshAgrees ((table g "pgm").filter fun l => l.tport = t)

theorem type_of_mem_printedMesh {T : List AdjLink} (hl : l ∈ printedMesh T) :
    ∃ k ∈ T, l.type = k.type ∧ l.tport = k.tport := by
  obtain ⟨G, hG, hl⟩ := List.mem_flatMap.1 hl
  obtain ⟨x, -, rfl⟩ := (Groups.mem_groups (Nat.le_refl _)).1 hG
  obtain ⟨k, hk, htport, htype⟩ := exists_of_mem_meshLinks hl
  exact ⟨k, (List.mem_filter.1 hk).1, htype, htport⟩

/-- The users of a connection of a mesh have links in it. -/
theorem sources_of_mem_printedMesh {T : List AdjLink} (hl : l ∈ printedMesh T) :
    ∀ i ∈ [l.a, l.b], ∃ k ∈ T, k.a = i := by
  obtain ⟨G, hG, hl⟩ := List.mem_flatMap.1 hl
  obtain ⟨x, -, rfl⟩ := (Groups.mem_groups (Nat.le_refl _)).1 hG
  cases hlinks : T.filter fun y => y.tport = x.tport with
  | nil =>
    rw [hlinks] at hl
    exact absurd hl List.not_mem_nil
  | cons link tests =>
    rw [hlinks] at hl
    obtain ⟨p, hp, rfl⟩ := List.mem_map.1 hl
    have hmem : ∀ i ∈ meshUsers link tests, ∃ k ∈ T, k.a = i := by
      intro i hi
      obtain ⟨-, k, hk, rfl⟩ := ((meshUsers_spec link tests).2 i).1 hi
      rw [← hlinks] at hk
      exact ⟨k, (List.mem_filter.1 hk).1, rfl⟩
    obtain ⟨hfirst, hsecond⟩ := Pairs.mem_of_mem_pairs hp
    intro i hi
    rcases List.mem_cons.1 hi with rfl | hi
    · exact hmem _ hfirst
    · rw [List.mem_singleton.1 hi]
      exact hmem _ hsecond

/-- The links of each type are printed by themselves. -/
theorem filter_type_printed (g : AdjGraph) {type : String} :
    (printed g).filter (fun l => l.type = type) =
      if type = "tcp" then (printedTcp (table g "tcp")).map (readLink (table g "tcp"))
      else if type = "mesh" then printedMesh (table g "mesh")
      else if type = "pgm" then printedMesh (table g "pgm") else [] := by
  have htcp : ∀ l ∈ (printedTcp (table g "tcp")).map (readLink (table g "tcp")),
      l.type = "tcp" := by
    intro l hl
    obtain ⟨k, hk, rfl⟩ := List.mem_map.1 hl
    exact (mem_table.1 (mem_of_mem_printedTcp hk)).2
  have hmesh : ∀ {type}, ∀ l ∈ printedMesh (table g type), l.type = type := by
    intro type l hl
    obtain ⟨k, hk, htype, -⟩ := type_of_mem_printedMesh hl
    exact htype.trans (mem_table.1 hk).2
  have hfilter : ∀ {ls : List AdjLink} {type'}, (∀ l ∈ ls, l.type = type') →
      ls.filter (fun l => l.type = type) = if type = type' then ls else [] := by
    intro ls type' hls
    split
    · next h => exact List.filter_eq_self.2 fun l hl => decide_eq_true ((hls l hl).trans h.symm)
    · next h =>
        refine List.filter_eq_nil_iff.2 fun l hl => ?_
        rw [decide_eq_true_eq, hls l hl]
        exact Ne.symm h
  rw [printed, List.filter_append, List.filter_append, hfilter htcp, hfilter hmesh, hfilter hmesh]
  by_cases ht : type = "tcp"
  · subst ht
    simp
  · by_cases hm : type = "mesh"
    · subst hm
      simp
    · simp only [if_neg ht, if_neg hm, List.nil_append]

theorem Paired.readsBack_iff (h : Paired g) : ReadsBack (allLinks g) (printed g) ↔ Printable g := by
  have hall := h.pairedTable
  have htable : ∀ type, PairedTable (table g type) := fun type =>
    hall.filter_kind fun k => decide (k.1 = type)
  have hone : ∀ {type}, ∀ l ∈ table g type, ∀ l' ∈ table g type, l.type = l'.type :=
    fun l hl l' hl' => (mem_table.1 hl).2.trans (mem_table.1 hl').2.symm
  have hstars : ReadsBack (table g "tcp")
      ((printedTcp (table g "tcp")).map (readLink (table g "tcp"))) ↔
        StarsAgree (table g "tcp") :=
    ⟨(htable "tcp").starsAgree, fun hs => hs.readsBack (htable "tcp")⟩
  have hsplit : ReadsBack (allLinks g) (printed g) ↔
      ∀ type, ReadsBack (table g type) ((printed g).filter fun l => l.type = type) :=
    readsBack_iff_forall Prod.fst
  rw [hsplit]
  constructor
  · intro hr
    have htcp := hr "tcp"
    have hmesh := hr "mesh"
    have hpgm := hr "pgm"
    rw [filter_type_printed] at htcp hmesh hpgm
    exact ⟨hstars.1 htcp, ((htable "mesh").readsBack_mesh_iff hone).1 hmesh,
      ((htable "pgm").readsBack_mesh_iff hone).1 hpgm⟩
  · rintro ⟨htcp, hmesh, hpgm⟩ type
    rw [filter_type_printed]
    by_cases ht : type = "tcp"
    · subst ht
      exact hstars.2 htcp
    · by_cases hm : type = "mesh"
      · subst hm
        exact ((htable "mesh").readsBack_mesh_iff hone).2 hmesh
      · by_cases hp : type = "pgm"
        · subst hp
          exact ((htable "pgm").readsBack_mesh_iff hone).2 hpgm
        · -- no link has another type
          have hnil : table g type = [] := List.filter_eq_nil_iff.2 fun l hl => by
            rw [decide_eq_true_eq]
            rintro rfl
            rcases h.types l hl with h | h | h
            · exact ht h
            · exact hm h
            · exact hp h
          rw [if_neg ht, if_neg hm, if_neg hp, hnil]
          exact fun _ _ => rfl

end PrintGraph

end Raims
