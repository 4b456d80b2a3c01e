import Raims.Graph.StarRoundTrip
import Raims.Lib.Pairs

/-!
# When meshes are read back as they were (`print_mesh`)

The links of one name are printed as their users, with the cost of the first link, and read
as a connection of every two of these users. So they are read back as they were when every
two of the users had one link each way, all of one cost.
-/

namespace Raims

namespace PrintGraph

open LoadGraph (Conn)
open StrikeOff (hasKey hasKey_iff)

variable {g : AdjGraph} {T G tests : List AdjLink} {l l' link : AdjLink} {x y u : ℕ}

/-! ## The users -/

/-- The set has the users in the list, and the first link's user is there with the others. -/
structure Used (link : AdjLink) (s : Finset ℕ × List ℕ) : Prop where
  mem : ∀ u, u ∈ s.1 ↔ u ∈ s.2
  nodup : s.2.Nodup
  first : s.2 ≠ [] → link.a ∈ s.2

theorem Used.useUser {s : Finset ℕ × List ℕ} (h : Used link s) (test : AdjLink) :
    Used link (useUser link s test) ∧
      ∀ u, u ∈ (PrintGraph.useUser link s test).2 ↔ u ∈ s.2 ∨ u = link.a ∨ u = test.a := by
  unfold PrintGraph.useUser
  by_cases htest : test.a ∈ s.1
  · rw [if_pos htest]
    rw [h.mem] at htest
    refine ⟨h, fun u => ⟨Or.inl, ?_⟩⟩
    rintro (hu | rfl | rfl)
    · exact hu
    · exact h.first (List.ne_nil_of_mem htest)
    · exact htest
  · rw [if_neg htest]
    rw [h.mem] at htest
    by_cases hlink : link.a ∈ insert test.a s.1
    · simp only [if_pos hlink]
      rw [Finset.mem_insert, h.mem] at hlink
      refine ⟨⟨fun u => ?_, ?_, fun _ => ?_⟩, fun u => ?_⟩
      · rw [Finset.mem_insert, h.mem, List.mem_append, List.mem_singleton, or_comm]
      · exact List.nodup_append'.2 ⟨h.nodup, List.nodup_singleton _,
          List.disjoint_singleton.2 htest⟩
      · rw [List.mem_append, List.mem_singleton]
        exact hlink.symm
      · rw [List.mem_append, List.mem_singleton]
        constructor
        · rintro (hu | rfl)
          · exact .inl hu
          · exact .inr (.inr rfl)
        · rintro (hu | rfl | rfl)
          · exact .inl hu
          · exact hlink.symm
          · exact .inr rfl
    · simp only [if_neg hlink]
      rw [Finset.mem_insert, h.mem, not_or] at hlink
      have hmem : ∀ u, u ∈ s.2 ++ [link.a] ++ [test.a] ↔ u ∈ s.2 ∨ u = link.a ∨ u = test.a := by
        intro u
        rw [List.mem_append, List.mem_append, List.mem_singleton, List.mem_singleton, or_assoc]
      refine ⟨⟨fun u => ?_, ?_, fun _ => ?_⟩, hmem⟩
      · rw [Finset.mem_insert, Finset.mem_insert, h.mem, hmem]
        exact ⟨fun h => h.elim (fun h => .inr (.inl h)) fun h => h.elim (fun h => .inr (.inr h)) .inl,
          fun h => h.elim (fun h => .inr (.inr h)) fun h => h.elim .inl fun h => .inr (.inl h)⟩
      · rw [List.append_assoc]
        refine List.nodup_append'.2 ⟨h.nodup, ?_, ?_⟩
        · rw [List.singleton_append, List.nodup_cons, List.mem_singleton]
          exact ⟨hlink.1, List.nodup_singleton _⟩
        · intro u hu hpair
          rcases List.mem_cons.1 hpair with rfl | hpair
          · exact hlink.2 hu
          · rw [List.mem_singleton.1 hpair] at hu
            exact htest hu
      · rw [hmem]
        exact .inr (.inl rfl)

/-- The users of several links of one name, each once. -/
theorem meshUsers_spec (link : AdjLink) (tests : List AdjLink) :
    (meshUsers link tests).Nodup ∧
      ∀ u, u ∈ meshUsers link tests ↔ tests ≠ [] ∧ ∃ l ∈ link :: tests, l.a = u := by
  have hrun : ∀ (tests : List AdjLink) (s : Finset ℕ × List ℕ), Used link s →
      Used link (tests.foldl (useUser link) s) ∧
        ∀ u, u ∈ (tests.foldl (useUser link) s).2 ↔
          u ∈ s.2 ∨ (tests ≠ [] ∧ u = link.a) ∨ ∃ l ∈ tests, l.a = u := by
    intro tests
    induction tests with
    | nil =>
      intro s hs
      refine ⟨hs, fun u => ⟨Or.inl, ?_⟩⟩
      rintro (hu | ⟨hne, -⟩ | ⟨l, hl, -⟩)
      · exact hu
      · exact absurd rfl hne
      · exact absurd hl List.not_mem_nil
    | cons test tests ih =>
      intro s hs
      obtain ⟨hone, hmem⟩ := hs.useUser test
      obtain ⟨hrest, hrmem⟩ := ih _ hone
      refine ⟨hrest, fun u => ?_⟩
      rw [List.foldl_cons, hrmem, hmem]
      constructor
      · rintro ((hu | rfl | rfl) | ⟨-, rfl⟩ | ⟨l, hl, rfl⟩)
        · exact .inl hu
        · exact .inr (.inl ⟨List.cons_ne_nil _ _, rfl⟩)
        · exact .inr (.inr ⟨test, List.mem_cons_self, rfl⟩)
        · exact .inr (.inl ⟨List.cons_ne_nil _ _, rfl⟩)
        · exact .inr (.inr ⟨l, List.mem_cons_of_mem test hl, rfl⟩)
      · rintro (hu | ⟨-, rfl⟩ | ⟨l, hl, rfl⟩)
        · exact .inl (.inl hu)
        · exact .inl (.inr (.inl rfl))
        · rcases List.mem_cons.1 hl with rfl | hl
          · exact .inl (.inr (.inr rfl))
          · exact .inr (.inr ⟨l, hl, rfl⟩)
  have hinit : Used link (∅, []) := ⟨fun u => by simp, List.nodup_nil, fun h => absurd rfl h⟩
  obtain ⟨hused, hmem⟩ := hrun tests _ hinit
  refine ⟨hused.nodup, fun u => ?_⟩
  rw [meshUsers, hmem]
  constructor
  · rintro (hu | ⟨hne, rfl⟩ | ⟨l, hl, rfl⟩)
    · exact absurd hu List.not_mem_nil
    · exact ⟨hne, link, List.mem_cons_self, rfl⟩
    · exact ⟨List.ne_nil_of_mem hl, l, List.mem_cons_of_mem link hl, rfl⟩
  · rintro ⟨hne, l, hl, rfl⟩
    rcases List.mem_cons.1 hl with rfl | hl
    · exact .inr (.inl ⟨hne, rfl⟩)
    · exact .inr (.inr ⟨l, hl, rfl⟩)

/-! ## The lines -/

/-- The connections of every two users of the links of one name, as they are read back. -/
def meshLinks : List AdjLink → List AdjLink
  | [] => []
  | link :: tests =>
    (Pairs.pairs (meshUsers link tests)).map fun p =>
      { link with a := p.1, b := p.2, cost := readCost link.cost }

def printedMesh (T : List AdjLink) : List AdjLink :=
  (Groups.groups AdjLink.tport T.length T).flatMap meshLinks

theorem length_pairs_of_le {us : List ℕ} (h : ¬ 1 < us.length) : Pairs.pairs us = [] := by
  match us with
  | [] => rfl
  | [u] => rfl
  | u :: v :: us =>
    rw [List.length_cons, List.length_cons] at h
    omega

/-- The line of a mesh is read as the connections of its users. -/
theorem conns_meshLine (g : AdjGraph) (stmt : LoadGraph.Stmt) (hlink : stmt ≠ .link)
    (hcube : stmt ≠ .cube) (hstmt : stmtOf (text link.type) = stmt) (tests : List AdjLink) :
    Line.conns ⟨text link.type, text link.tport, (meshUsers link tests).map (userName g),
      link.cost⟩ = (meshLinks (link :: tests)).map (toConn g) := by
  have hround : ∀ (users : List Text) (tport type : Text) (cost : AdjCost),
      LoadGraph.round stmt users tport type cost =
        (Pairs.pairs users).map fun p => ⟨p.1, p.2, tport, type, cost⟩ := by
    intro users tport type cost
    rw [← Pairs.flatMap_range_eq (fun a b => (⟨a, b, tport, type, cost⟩ : Conn)) []]
    cases stmt with
    | link => exact absurd rfl hlink
    | cube => exact absurd rfl hcube
    | none => rfl
    | start => rfl
    | node => rfl
    | mesh => rfl
    | pgm => rfl
  rw [Line.conns, List.length_map, hstmt]
  split
  · rw [hround, Pairs.pairs_map, List.map_map, meshLinks, List.map_map]
    rfl
  · next hlen =>
      rw [meshLinks, length_pairs_of_le hlen]
      rfl

theorem conns_printMesh (g : AdjGraph) (htype : ∀ l ∈ T, l.type = "mesh" ∨ l.type = "pgm") :
    (printMesh g T).flatMap Line.conns = (printedMesh T).map (toConn g) := by
  have hgroups : ∀ gs : List (List AdjLink),
      (∀ s ∈ gs, ∀ l ∈ s, l.type = "mesh" ∨ l.type = "pgm") →
      (gs.filterMap (meshLine g)).flatMap Line.conns = (gs.flatMap meshLinks).map (toConn g) := by
    intro gs
    induction gs with
    | nil => exact fun _ => rfl
    | cons s gs ih =>
      intro hgs
      have hrest := ih fun s' hs' => hgs s' (List.mem_cons_of_mem s hs')
      cases s with
      | nil => exact hrest
      | cons link tests =>
        have hline : meshLine g (link :: tests) = some _ := rfl
        rw [List.filterMap_cons_some hline, List.flatMap_cons, List.flatMap_cons, List.map_append,
          hrest]
        congr 1
        rcases hgs _ List.mem_cons_self link List.mem_cons_self with hlink | hlink
        · exact conns_meshLine g .mesh (by decide) (by decide) (by rw [hlink]; rfl) tests
        · exact conns_meshLine g .pgm (by decide) (by decide) (by rw [hlink]; rfl) tests
  refine hgroups _ fun s hs l hl => ?_
  obtain ⟨x, -, rfl⟩ := (Groups.mem_groups (Nat.le_refl _)).1 hs
  exact htype l (List.mem_filter.1 hl).1

/-! ## Links of one name -/

/-- What the text can tell of the links of one name in a mesh. -/
structure MeshAgrees (G : List AdjLink) : Prop where
  noLoop : ∀ l ∈ G, l.a ≠ l.b
  full : ∀ l ∈ G, ∀ l' ∈ G, l.a ≠ l'.a → (G.filter (hasKey ends (l.a, l'.a))).length = 1
  cost : ∀ l ∈ G, ∀ l' ∈ G, l.cost = l'.cost
  read : ∀ l ∈ G, readCost l.cost = l.cost

/-- The kind that all connections of a mesh have. -/
def meshKind (link : AdjLink) : LinkKind := (link.type, link.tport, readCost link.cost)

theorem between_meshLinks (link : AdjLink) (tests : List AdjLink) (x y : ℕ) :
    between (meshLinks (link :: tests)) x y =
      Multiset.replicate ((Pairs.pairs (meshUsers link tests)).countP fun p => p = (x, y))
        (meshKind link) := by
  rw [between, meshLinks, List.filter_map, List.map_map, List.countP_eq_length_filter]
  refine Multiset.coe_eq_coe.2 (.of_eq (List.eq_replicate_iff.2 ⟨?_, fun kind hkind => ?_⟩))
  · rw [List.length_map]
    rfl
  · obtain ⟨p, -, rfl⟩ := List.mem_map.1 hkind
    rfl

/-- Every two users are connected once. -/
theorem between_meshLinks_add (link : AdjLink) (tests : List AdjLink) (hxy : x ≠ y) :
    between (meshLinks (link :: tests)) x y + between (meshLinks (link :: tests)) y x =
      Multiset.replicate (if x ∈ meshUsers link tests ∧ y ∈ meshUsers link tests then 1 else 0)
        (meshKind link) := by
  rw [between_meshLinks, between_meshLinks, ← Multiset.replicate_add,
    Pairs.countP_pairs_add (meshUsers_spec link tests).1 hxy]

theorem between_meshLinks_self (link : AdjLink) (tests : List AdjLink) (x : ℕ) :
    between (meshLinks (link :: tests)) x x = 0 := by
  rw [between_meshLinks, Pairs.countP_pairs_self (meshUsers_spec link tests).1]
  rfl

/-- There are at least two links of a name. -/
theorem PairedTable.ne_nil_of_cons (hT : PairedTable (link :: tests)) : tests ≠ [] := by
  rintro rfl
  obtain ⟨l', hl', ha, hb, -⟩ := hT.exists_back (List.mem_cons_self (a := link) (l := []))
  rw [List.mem_singleton.1 hl'] at ha
  obtain ⟨kinds, hkinds⟩ := hT.even link.a
  have hcard := congrArg Multiset.card hkinds
  have hfilter : [link].filter (hasKey ends (link.a, link.a)) = [link] :=
    List.filter_eq_self.2 fun l hl => by
      rw [List.mem_singleton.1 hl, hasKey_iff, ends, ← ha]
  rw [between, hfilter, Multiset.card_add] at hcard
  have hone : Multiset.card (([link].map kindOf : List LinkKind) : Multiset LinkKind) = 1 := rfl
  omega

theorem mem_meshUsers (hT : PairedTable (link :: tests)) :
    u ∈ meshUsers link tests ↔ ∃ l ∈ link :: tests, l.a = u := by
  rw [(meshUsers_spec link tests).2, and_iff_right hT.ne_nil_of_cons]

/-- Both users of a link are users of the mesh. -/
theorem mem_meshUsers_of_mem (hT : PairedTable (link :: tests)) (hl : l ∈ link :: tests) :
    l.a ∈ meshUsers link tests ∧ l.b ∈ meshUsers link tests := by
  obtain ⟨l', hl', ha, -, -⟩ := hT.exists_back hl
  exact ⟨(mem_meshUsers hT).2 ⟨l, hl, rfl⟩, (mem_meshUsers hT).2 ⟨l', hl', ha⟩⟩

theorem PairedTable.meshAgrees (hT : PairedTable (link :: tests))
    (h : ReadsBack (link :: tests) (meshLinks (link :: tests))) :
    MeshAgrees (link :: tests) := by
  have hloop : ∀ l ∈ link :: tests, l.a ≠ l.b := by
    intro l hl hab
    have hmem : kindOf l ∈ between (link :: tests) l.a l.a :=
      mem_between.2 ⟨l, hl, rfl, hab.symm, rfl⟩
    rw [h, between_meshLinks_self] at hmem
    exact Multiset.notMem_zero _ hmem
  have hone : ∀ {x y}, x ≠ y → x ∈ meshUsers link tests → y ∈ meshUsers link tests →
      between (link :: tests) x y = {meshKind link} := by
    intro x y hxy hx hy
    rw [h, between_meshLinks_add link tests hxy, if_pos ⟨hx, hy⟩]
    rfl
  have hkind : ∀ l ∈ link :: tests, kindOf l = meshKind link := by
    intro l hl
    obtain ⟨ha, hb⟩ := mem_meshUsers_of_mem hT hl
    have hmem : kindOf l ∈ between (link :: tests) l.a l.b := mem_between.2 ⟨l, hl, rfl, rfl, rfl⟩
    rwa [hone (hloop l hl) ha hb, Multiset.mem_singleton] at hmem
  have hcost : ∀ l ∈ link :: tests, l.cost = readCost link.cost := fun l hl =>
    congrArg (·.2.2) (hkind l hl)
  have hfirst := hcost link List.mem_cons_self
  refine ⟨hloop, fun l hl l' hl' hne => ?_, fun l hl l' hl' => ?_, fun l hl => ?_⟩
  · have hcard := congrArg Multiset.card
      (hone hne (mem_meshUsers_of_mem hT hl).1 (mem_meshUsers_of_mem hT hl').1)
    rwa [between, Multiset.coe_card, List.length_map, Multiset.card_singleton] at hcard
  · rw [hcost l hl, hcost l' hl']
  · rw [hcost l hl, ← hfirst]
    exact hfirst.symm

theorem MeshAgrees.readsBack (h : MeshAgrees (link :: tests)) (hT : PairedTable (link :: tests))
    (htype : ∀ l ∈ link :: tests, l.type = link.type)
    (htport : ∀ l ∈ link :: tests, l.tport = link.tport) :
    ReadsBack (link :: tests) (meshLinks (link :: tests)) := by
  intro x y
  by_cases hxy : x = y
  · subst hxy
    have hzero : between (link :: tests) x x = 0 := by
      refine Multiset.eq_zero_iff_forall_notMem.2 fun k hk => ?_
      obtain ⟨l, hl, ha, hb, -⟩ := mem_between.1 hk
      exact h.noLoop l hl (ha.trans hb.symm)
    rw [between_meshLinks_self, hzero]
    rfl
  · rw [between_meshLinks_add link tests hxy, Multiset.eq_replicate]
    refine ⟨?_, fun k hk => ?_⟩
    · rw [between, Multiset.coe_card, List.length_map]
      split
      · next husers =>
          obtain ⟨l, hl, rfl⟩ := (mem_meshUsers hT).1 husers.1
          obtain ⟨l', hl', rfl⟩ := (mem_meshUsers hT).1 husers.2
          exact h.full l hl l' hl' hxy
      · next husers =>
          refine List.length_eq_zero_iff.2 (List.filter_eq_nil_iff.2 fun l hl hends => husers ?_)
          obtain ⟨-, rfl, rfl⟩ := mem_ends.1 (List.mem_filter.2 ⟨hl, hends⟩)
          exact mem_meshUsers_of_mem hT hl
    · obtain ⟨l, hl, -, -, rfl⟩ := mem_between.1 hk
      rw [kindOf, meshKind, htype l hl, htport l hl, h.cost l hl link List.mem_cons_self,
        h.read link List.mem_cons_self]

/-! ## All names -/

theorem exists_of_mem_meshLinks {b : AdjLink} (hb : b ∈ meshLinks G) :
    ∃ l ∈ G, b.tport = l.tport ∧ b.type = l.type := by
  cases G with
  | nil => exact absurd hb List.not_mem_nil
  | cons link tests =>
    obtain ⟨p, -, rfl⟩ := List.mem_map.1 hb
    exact ⟨link, List.mem_cons_self, rfl, rfl⟩

/-- What is printed of one name. -/
theorem filter_printedMesh (T : List AdjLink) (t : String) :
    ((printedMesh T).filter fun l => l.tport = t) = meshLinks (T.filter fun l => l.tport = t) := by
  refine Groups.filter_flatMap_groups (fun G b hb => ?_) t (Nat.le_refl _)
  obtain ⟨l, hl, htport, -⟩ := exists_of_mem_meshLinks hb
  exact ⟨l, hl, htport⟩

/-- A mesh is read back as it was when the links of each of its names are. -/
theorem PairedTable.readsBack_mesh_iff (hT : PairedTable T)
    (htype : ∀ l ∈ T, ∀ l' ∈ T, l.type = l'.type) :
    ReadsBack T (printedMesh T) ↔ ∀ t, MeshAgrees (T.filter fun l => l.tport = t) := by
  rw [readsBack_iff_forall fun k => k.2.1]
  refine forall_congr' fun t => ?_
  have hprinted : ((printedMesh T).filter fun l => (kindOf l).2.1 = t) =
      meshLinks (T.filter fun l => l.tport = t) := filter_printedMesh T t
  have hname : PairedTable (T.filter fun l => l.tport = t) :=
    hT.filter_kind fun k => decide (k.2.1 = t)
  rw [hprinted]
  show ReadsBack (T.filter fun l => l.tport = t) _ ↔ _
  have hmem : ∀ l ∈ T.filter (fun l => l.tport = t), l ∈ T ∧ l.tport = t := by
    intro l hl
    rwa [List.mem_filter, decide_eq_true_eq] at hl
  cases hG : T.filter fun l => l.tport = t with
  | nil =>
    refine ⟨fun _ => ⟨?_, ?_, ?_, ?_⟩, fun _ _ _ => rfl⟩ <;> exact List.forall_mem_nil _
  | cons link tests =>
    rw [hG] at hname hmem
    have hlink := hmem link List.mem_cons_self
    refine ⟨hname.meshAgrees, fun h => h.readsBack hname ?_ ?_⟩
    · exact fun l hl => htype l (hmem l hl).1 link hlink.1
    · exact fun l hl => (hmem l hl).2.trans hlink.2.symm

end PrintGraph

end Raims
