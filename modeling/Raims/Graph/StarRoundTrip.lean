import Raims.Graph.PrintedStars

/-!
# When stars and single links are read back as they were

A connection is read as a link each way. The links between two users are read back as they
were when no name is a star at both of them, when the links that are struck off are those
that a star of the other user prints, and when all links of a star have the cost that is
printed.
-/

namespace Raims

namespace PrintGraph

open StrikeOff (hasKey hasKey_iff Front)

variable {T : List AdjLink} {l l' : AdjLink} {x y : ℕ}

/-- What the text can tell of `tcp` links. -/
structure StarsAgree (T : List AdjLink) : Prop where
  noLoop : ∀ l ∈ T, l.a ≠ l.b
  oneStar : ∀ l ∈ T, starAt T l.a l.tport = true → starAt T l.b l.tport = false
  front : ∀ x y, x < y → Front (fun l => starAt T y l.tport) (loose T x y)
  cost : ∀ l ∈ T, ∀ l' ∈ T, l.a = l'.a → l.tport = l'.tport → l.cost = l'.cost
  read : ∀ l ∈ T, readCost l.cost = l.cost

/-! ## Links between two users -/

/-- What is read for two users. -/
theorem PairedTable.between_printed (hT : PairedTable T) (hxy : x < y) :
    between ((printedTcp T).map (readLink T)) x y +
        between ((printedTcp T).map (readLink T)) y x =
      ((tied T x y ++ (loose T x y).drop (tied T y x).length ++ tied T y x).map
        (kindOf ∘ readLink T) : List LinkKind) := by
  obtain ⟨hfirst, hsecond⟩ := filter_printedTcp hT.sorted hxy (hT.length_eq x y)
  have hends : ∀ l, ends (readLink T l) = ends l := fun _ => rfl
  rw [between_map hends, between_map hends, Multiset.coe_add, Multiset.coe_eq_coe,
    ← List.map_append]
  exact (hfirst.append hsecond).map _

theorem between_eq_iff (hT : PairedTable T) (hxy : x < y) :
    between T x y = between ((printedTcp T).map (readLink T)) x y +
        between ((printedTcp T).map (readLink T)) y x ↔
      ((T.filter (hasKey ends (x, y))).map kindOf).Perm
        ((tied T x y ++ (loose T x y).drop (tied T y x).length ++ tied T y x).map
          (kindOf ∘ readLink T)) := by
  rw [hT.between_printed hxy, between, Multiset.coe_eq_coe]

/-! ## The names -/

theorem mem_tied : l ∈ tied T x y ↔ (l ∈ T ∧ l.a = x ∧ l.b = y) ∧ starAt T x l.tport = true := by
  rw [tied, List.mem_filter, mem_ends]

theorem mem_loose :
    l ∈ loose T x y ↔ (l ∈ T ∧ l.a = x ∧ l.b = y) ∧ starAt T x l.tport = false := by
  rw [loose, List.mem_filter, mem_ends, Bool.not_eq_true']

/-- What is struck off has the names of the star's links. -/
theorem tport_struck_perm
    (h : ((T.filter (hasKey ends (x, y))).map kindOf).Perm
        ((tied T x y ++ (loose T x y).drop (tied T y x).length ++ tied T y x).map
          (kindOf ∘ readLink T))) :
    (((loose T x y).take (tied T y x).length).map AdjLink.tport).Perm
      ((tied T y x).map AdjLink.tport) := by
  have hname : ∀ ls : List AdjLink, (ls.map kindOf).map (·.2.1) = ls.map AdjLink.tport :=
    fun ls => List.map_map
  have hread : ∀ ls : List AdjLink, (ls.map (kindOf ∘ readLink T)).map (·.2.1) =
      ls.map AdjLink.tport := fun ls => List.map_map
  have hall := h.map (·.2.1)
  rw [hname, hread] at hall
  have hsplit := (tied_append_loose_perm T x y).map AdjLink.tport
  have htake := List.take_append_drop (tied T y x).length (loose T x y)
  have hsum := hsplit.trans hall
  rw [← htake, List.map_append, List.map_append, List.map_append, List.map_append, htake,
    List.append_assoc] at hsum
  have hrest := (List.perm_append_left_iff _).1 hsum
  exact (List.perm_append_left_iff _).1 (List.perm_append_comm.trans hrest)

/-- No link from one user to the other has a name that is a star at both. -/
def OneStar (T : List AdjLink) (x y : ℕ) : Prop :=
  ∀ l ∈ T.filter (hasKey ends (x, y)), starAt T x l.tport = true → starAt T y l.tport = false

/-- The links that are struck off, when no name is a star at both. -/
theorem PairedTable.filter_loose (hT : PairedTable T) (hone : OneStar T x y) :
    (((loose T x y).filter fun l => starAt T y l.tport).map kindOf).Perm
      ((tied T y x).map kindOf) := by
  refine .trans (.of_eq ?_) (hT.filter_perm (starAt T y) x y)
  congr 1
  rw [loose, List.filter_filter]
  refine List.filter_congr fun l hl => ?_
  cases hy : starAt T y l.tport with
  | false => rfl
  | true =>
    cases hx : starAt T x l.tport with
    | false => rfl
    | true => exact absurd hy (by rw [hone l hl hx]; exact Bool.false_ne_true)

theorem oneStar_of_perm (hT : PairedTable T)
    (h : ((T.filter (hasKey ends (x, y))).map kindOf).Perm
        ((tied T x y ++ (loose T x y).drop (tied T y x).length ++ tied T y x).map
          (kindOf ∘ readLink T))) :
    OneStar T x y := by
  intro l hl hx
  rw [← Bool.not_eq_true]
  intro hy
  -- its name is among those that are struck off, and there none is a star
  have hback : kindOf l ∈ ((T.filter (hasKey ends (y, x))).filter fun l =>
      starAt T y l.tport).map kindOf :=
    (hT.filter_perm (starAt T y) x y).subset
      (List.mem_map_of_mem (List.mem_filter.2 ⟨hl, hy⟩))
  obtain ⟨l', hl', hkind⟩ := List.mem_map.1 hback
  have hname : l'.tport = l.tport := congrArg (·.2.1) hkind
  obtain ⟨l'', hl'', hname'⟩ :=
    List.mem_map.1 ((tport_struck_perm h).symm.subset (List.mem_map_of_mem hl'))
  have hloose := (mem_loose.1 (List.mem_of_mem_take hl'')).2
  rw [hname', hname, hx] at hloose
  exact Bool.noConfusion hloose

theorem front_of_perm (hT : PairedTable T)
    (h : ((T.filter (hasKey ends (x, y))).map kindOf).Perm
        ((tied T x y ++ (loose T x y).drop (tied T y x).length ++ tied T y x).map
          (kindOf ∘ readLink T))) :
    Front (fun l => starAt T y l.tport) (loose T x y) := by
  have hlen := (hT.filter_loose (oneStar_of_perm hT h)).length_eq
  rw [List.length_map, List.length_map] at hlen
  apply StrikeOff.front_of_take
  rw [hlen]
  intro l hl
  obtain ⟨l', hl', hname⟩ := List.mem_map.1 ((tport_struck_perm h).subset (List.mem_map_of_mem hl))
  rw [← hname]
  exact (mem_tied.1 hl').2

/-! ## The costs -/

/-- The links between two users of which one each way is printed. -/
def kept (T : List AdjLink) (x y : ℕ) : List AdjLink :=
  tied T x y ++ (loose T x y).filter (fun l => !starAt T y l.tport) ++ tied T y x

theorem PairedTable.kept_perm (hT : PairedTable T) (hone : OneStar T x y) :
    ((T.filter (hasKey ends (x, y))).map kindOf).Perm ((kept T x y).map kindOf) := by
  have hsplit := ((tied_append_loose_perm T x y).map kindOf).symm
  have hloose := ((List.filter_append_perm (fun l => starAt T y l.tport) (loose T x y)).map
    kindOf).symm
  rw [List.map_append] at hsplit hloose
  refine hsplit.trans ((hloose.append_left _).trans ?_)
  rw [kept, List.map_append, List.map_append, List.append_assoc]
  exact (((hT.filter_loose hone).append_right _).trans List.perm_append_comm).append_left _

/-- Among them a name is one of one user. -/
theorem eq_source_of_mem_kept (hone : OneStar T x y) (hl : l ∈ kept T x y)
    (hl' : l' ∈ kept T x y) (hname : l.tport = l'.tport) : l.a = l'.a := by
  have hcases : ∀ {l}, l ∈ kept T x y →
      (l.a = x ∧ starAt T y l.tport = false) ∨ (l.a = y ∧ starAt T y l.tport = true) := by
    intro l hl
    rw [kept, List.mem_append, List.mem_append] at hl
    rcases hl with (hl | hl) | hl
    · obtain ⟨hends, hx⟩ := mem_tied.1 hl
      exact .inl ⟨hends.2.1, hone l (mem_ends.2 hends) hx⟩
    · obtain ⟨hl, hy⟩ := List.mem_filter.1 hl
      rw [Bool.not_eq_true'] at hy
      exact .inl ⟨(mem_loose.1 hl).1.2.1, hy⟩
    · obtain ⟨hends, hy⟩ := mem_tied.1 hl
      exact .inr ⟨hends.2.1, hy⟩
  rcases hcases hl with ⟨ha, hy⟩ | ⟨ha, hy⟩
  · rcases hcases hl' with ⟨ha', -⟩ | ⟨-, hy'⟩
    · rw [ha, ha']
    · rw [hname, hy'] at hy
      exact Bool.noConfusion hy
  · rcases hcases hl' with ⟨-, hy'⟩ | ⟨ha', -⟩
    · rw [hname, hy'] at hy
      exact Bool.noConfusion hy
    · rw [ha, ha']

theorem mem_of_mem_kept (hl : l ∈ kept T x y) : l ∈ T := by
  rw [kept, List.mem_append, List.mem_append] at hl
  rcases hl with (hl | hl) | hl
  · exact (mem_tied.1 hl).1.1
  · exact (mem_loose.1 (List.mem_filter.1 hl).1).1.1
  · exact (mem_tied.1 hl).1.1

theorem starCost_congr (hl : l ∈ T) (h : starKey l = starKey l') : starCost T l = starCost T l' := by
  obtain ⟨link, others, hstar, -⟩ := exists_star hl
  rw [starCost, starCost, ← h, hstar]
  rfl

/-- The cost that is printed for a link is that of a link of its star. -/
theorem exists_starCost (hl : l ∈ T) :
    ∃ link ∈ T, starKey link = starKey l ∧ starCost T l = link.cost := by
  obtain ⟨link, others, hstar, hlink, hkey⟩ := exists_star hl
  refine ⟨link, hlink, hkey, ?_⟩
  rw [starCost, hstar]
  rfl

theorem kindOf_readLink : kindOf (readLink T l) = kindOf l ↔ readCost (starCost T l) = l.cost := by
  rw [kindOf, kindOf, readLink, Prod.mk.injEq, Prod.mk.injEq]
  exact ⟨fun h => h.2.2, fun h => ⟨rfl, rfl, h⟩⟩

theorem kindOf_readLink_congr {kinds : List AdjLink} (hmem : ∀ l ∈ kinds, l ∈ T)
    (hsource : ∀ l ∈ kinds, ∀ l' ∈ kinds, l.tport = l'.tport → l.a = l'.a)
    (h : (kinds.map kindOf).Perm (kinds.map (kindOf ∘ readLink T))) :
    ∀ l ∈ kinds, kindOf (readLink T l) = kindOf l := by
  intro l hl
  obtain ⟨l', hl', hkind⟩ := List.mem_map.1 (h.subset (List.mem_map_of_mem hl))
  have hname : l'.tport = l.tport := congrArg (·.2.1) hkind
  have hkey : starKey l' = starKey l := Prod.ext (hsource l' hl' l hl hname) hname
  rw [kindOf_readLink, ← starCost_congr (hmem l' hl') hkey]
  exact congrArg (·.2.2) hkind

/-- The links between two users are read back when no name is a star at both, the right ones
are struck off, and the costs that are printed are those of the links. -/
theorem PairedTable.between_eq_iff (hT : PairedTable T) (hxy : x < y) :
    between T x y = between ((printedTcp T).map (readLink T)) x y +
        between ((printedTcp T).map (readLink T)) y x ↔
      OneStar T x y ∧ Front (fun l => starAt T y l.tport) (loose T x y) ∧
        ∀ l ∈ kept T x y, readCost (starCost T l) = l.cost := by
  -- what is printed, when the right links are struck off
  have hprinted : OneStar T x y → Front (fun l => starAt T y l.tport) (loose T x y) →
      tied T x y ++ (loose T x y).drop (tied T y x).length ++ tied T y x = kept T x y := by
    intro hone hfront
    have hlen := (hT.filter_loose hone).length_eq
    rw [List.length_map, List.length_map] at hlen
    rw [kept, ← hfront.drop, hlen]
  rw [PrintGraph.between_eq_iff hT hxy]
  constructor
  · intro h
    have hone := oneStar_of_perm hT h
    have hfront := front_of_perm hT h
    rw [hprinted hone hfront] at h
    refine ⟨hone, hfront, fun l hl => ?_⟩
    exact kindOf_readLink.1 (kindOf_readLink_congr (fun l => mem_of_mem_kept)
      (fun l hl l' hl' => eq_source_of_mem_kept hone hl hl') ((hT.kept_perm hone).symm.trans h) l hl)
  · rintro ⟨hone, hfront, hcost⟩
    rw [hprinted hone hfront]
    refine (hT.kept_perm hone).trans (.of_eq ?_)
    exact List.map_congr_left fun l hl => (kindOf_readLink.2 (hcost l hl)).symm

/-! ## All links -/

/-- A connection of a user with itself is printed twice. -/
theorem PairedTable.noLoop (hT : PairedTable T)
    (h : ReadsBack T ((printedTcp T).map (readLink T))) : ∀ l ∈ T, l.a ≠ l.b := by
  intro l hl hloop
  obtain ⟨kinds, hkinds⟩ := hT.even l.a
  -- all links of a user to itself are in stars
  have hstar : ∀ k ∈ T.filter (hasKey ends (l.a, l.a)), starAt T l.a k.tport = true := by
    intro k hk
    have hmem : kindOf k ∈ between T l.a l.a := List.mem_map_of_mem hk
    have htwo : 2 ≤ (between T l.a l.a).count (kindOf k) := by
      rw [hkinds, Multiset.mem_add, or_self] at hmem
      rw [hkinds, Multiset.count_add]
      have hpos := Multiset.count_pos.2 hmem
      omega
    rw [between, Multiset.count_eq_card_filter_eq, Multiset.filter_coe, Multiset.coe_card,
      List.filter_map, List.length_map, List.filter_filter, ← List.countP_eq_length_filter] at htwo
    rw [starAt, decide_eq_true_eq]
    refine Nat.lt_of_lt_of_le htwo (List.countP_mono_left fun k' _ hk' => ?_)
    rw [Bool.and_eq_true, Function.comp_apply, decide_eq_true_eq, hasKey_iff] at hk'
    have hname : k'.tport = k.tport := congrArg (·.2.1) hk'.1.symm
    have ha : k'.a = l.a := congrArg Prod.fst hk'.2
    rw [hasKey_iff, starKey, hname, ha]
  have htied : tied T l.a l.a = T.filter (hasKey ends (l.a, l.a)) := List.filter_eq_self.2 hstar
  have hmore : (T.filter (hasKey ends (l.a, l.a))).length ≤
      ((printedTcp T).filter (hasKey ends (l.a, l.a))).length := by
    rw [printedTcp_eq, List.filter_append, List.length_append,
      (filter_stars_perm T l.a l.a).length_eq, htied]
    exact Nat.le_add_right _ _
  have hends : ∀ l, ends (readLink T l) = ends l := fun _ => rfl
  have hcard := congrArg Multiset.card (h l.a l.a)
  rw [between_map hends, between, Multiset.card_add, Multiset.coe_card, Multiset.coe_card,
    List.length_map, List.length_map] at hcard
  have hpos : 0 < (T.filter (hasKey ends (l.a, l.a))).length :=
    List.length_pos_of_mem (mem_ends.2 ⟨hl, rfl, hloop.symm⟩)
  omega

/-- A link that is read back has the cost that is printed for its star. -/
theorem PairedTable.cost_of_readsBack (hT : PairedTable T)
    (h : ReadsBack T ((printedTcp T).map (readLink T))) (hl : l ∈ T)
    (hstar : starAt T l.a l.tport = true) : readCost (starCost T l) = l.cost := by
  rcases Nat.lt_or_gt_of_ne (hT.noLoop h l hl) with hlt | hgt
  · refine ((hT.between_eq_iff hlt).1 (h l.a l.b)).2.2 l ?_
    rw [kept, List.append_assoc]
    exact List.mem_append_left _ (mem_tied.2 ⟨⟨hl, rfl, rfl⟩, hstar⟩)
  · refine ((hT.between_eq_iff hgt).1 (h l.b l.a)).2.2 l ?_
    exact List.mem_append_right _ (mem_tied.2 ⟨⟨hl, rfl, rfl⟩, hstar⟩)

/-- All links of a star have one cost, and it is read back. -/
theorem PairedTable.star_of_readsBack (hT : PairedTable T)
    (h : ReadsBack T ((printedTcp T).map (readLink T))) (hl : l ∈ T)
    (hstar : starAt T l.a l.tport = true) :
    l.cost = starCost T l ∧ readCost l.cost = l.cost := by
  obtain ⟨link, hlink, hkey, hcost⟩ := exists_starCost hl
  have ha : link.a = l.a := congrArg Prod.fst hkey
  have hname : link.tport = l.tport := congrArg Prod.snd hkey
  have hfirst := hT.cost_of_readsBack h hlink (by rwa [ha, hname])
  rw [starCost_congr hlink hkey, hcost] at hfirst
  have hall := hT.cost_of_readsBack h hl hstar
  rw [hcost, hfirst] at hall
  rw [hcost, ← hall]
  exact ⟨rfl, hfirst⟩

/-- A link that is in no star is alone. -/
theorem filter_of_loose (hl : l ∈ T) (hloose : starAt T l.a l.tport = false) :
    T.filter (hasKey starKey (starKey l)) = [l] := by
  have hmem : l ∈ loose T l.a l.b := mem_loose.2 ⟨⟨hl, rfl, rfl⟩, hloose⟩
  rw [← filter_alone] at hmem
  exact filter_of_mem_alone (List.mem_filter.1 hmem).1

theorem starCost_of_filter (h : T.filter (hasKey starKey (starKey l)) = [l]) :
    starCost T l = l.cost := by
  rw [starCost, h]
  rfl

/-- The cost of a link from an earlier user to a later one is read back. -/
theorem PairedTable.read_of_lt (hT : PairedTable T)
    (h : ReadsBack T ((printedTcp T).map (readLink T))) (hl : l ∈ T) (hlt : l.a < l.b) :
    readCost l.cost = l.cost := by
  cases ha : starAt T l.a l.tport with
  | true => exact (hT.star_of_readsBack h hl ha).2
  | false =>
    cases hb : starAt T l.b l.tport with
    | true =>
      -- the link back is one of a star
      obtain ⟨l', hl', ha', -, hkind⟩ := hT.exists_back hl
      have hname : l'.tport = l.tport := congrArg (·.2.1) hkind
      have hcost : l'.cost = l.cost := congrArg (·.2.2) hkind
      rw [← hcost]
      exact (hT.star_of_readsBack h hl' (by rwa [ha', hname])).2
    | false =>
      have hkept : l ∈ kept T l.a l.b := by
        rw [kept, List.append_assoc]
        refine List.mem_append_right _ (List.mem_append_left _ (List.mem_filter.2 ⟨?_, ?_⟩))
        · exact mem_loose.2 ⟨⟨hl, rfl, rfl⟩, ha⟩
        · rw [hb, Bool.not_false]
      have hread := ((hT.between_eq_iff hlt).1 (h l.a l.b)).2.2 l hkept
      rwa [starCost_of_filter (filter_of_loose hl ha)] at hread

theorem PairedTable.starsAgree (hT : PairedTable T)
    (h : ReadsBack T ((printedTcp T).map (readLink T))) : StarsAgree T where
  noLoop := hT.noLoop h
  oneStar := by
    intro l hl ha
    rcases Nat.lt_or_gt_of_ne (hT.noLoop h l hl) with hlt | hgt
    · exact ((hT.between_eq_iff hlt).1 (h l.a l.b)).1 l (mem_ends.2 ⟨hl, rfl, rfl⟩) ha
    · obtain ⟨l', hl', ha', hb', hkind⟩ := hT.exists_back hl
      have hname : l'.tport = l.tport := congrArg (·.2.1) hkind
      have hone := ((hT.between_eq_iff hgt).1 (h l.b l.a)).1 l' (mem_ends.2 ⟨hl', ha', hb'⟩)
      rw [hname, ha] at hone
      exact Bool.eq_false_iff.2 fun hb => Bool.noConfusion (hone hb)
  front := fun x y hxy => ((hT.between_eq_iff hxy).1 (h x y)).2.1
  cost := by
    intro l hl l' hl' ha hname
    have hkey : starKey l = starKey l' := Prod.ext ha hname
    cases hstar : starAt T l.a l.tport with
    | true =>
      rw [(hT.star_of_readsBack h hl hstar).1, starCost_congr hl hkey,
        ← (hT.star_of_readsBack h hl' (by rwa [← ha, ← hname])).1]
    | false =>
      have hmem : l' ∈ T.filter (hasKey starKey (starKey l)) :=
        List.mem_filter.2 ⟨hl', hasKey_iff.2 hkey.symm⟩
      rw [filter_of_loose hl hstar, List.mem_singleton] at hmem
      rw [hmem]
  read := by
    intro l hl
    rcases Nat.lt_or_gt_of_ne (hT.noLoop h l hl) with hlt | hgt
    · exact hT.read_of_lt h hl hlt
    · obtain ⟨l', hl', ha', hb', hkind⟩ := hT.exists_back hl
      have hcost : l'.cost = l.cost := congrArg (·.2.2) hkind
      rw [← hcost]
      exact hT.read_of_lt h hl' (by rwa [ha', hb'])

theorem mem_of_mem_printedTcp (hl : l ∈ printedTcp T) : l ∈ T := by
  rw [printedTcp_eq, List.mem_append] at hl
  rcases hl with hl | hl
  · obtain ⟨s, hs, hl⟩ := List.mem_flatten.1 hl
    obtain ⟨x, -, rfl⟩ := (Groups.mem_groups (Nat.le_refl _)).1 (List.mem_filter.1 hs).1
    exact (List.mem_filter.1 hl).1
  · have halone := mem_unstruck ((StrikeOff.pairOff_sublist ends Prod.swap _ _).subset hl)
    exact (List.mem_filter.1 halone).1

theorem StarsAgree.readsBack (h : StarsAgree T) (hT : PairedTable T) :
    ReadsBack T ((printedTcp T).map (readLink T)) := by
  have hlt : ∀ x y, x < y → between T x y =
      between ((printedTcp T).map (readLink T)) x y +
        between ((printedTcp T).map (readLink T)) y x := by
    intro x y hxy
    refine (hT.between_eq_iff hxy).2 ⟨?_, h.front x y hxy, ?_⟩
    · intro l hl ha
      obtain ⟨hmem, rfl, rfl⟩ := mem_ends.1 hl
      exact h.oneStar l hmem ha
    · intro l hl
      have hmem := mem_of_mem_kept hl
      obtain ⟨link, hlink, hkey, hcost⟩ := exists_starCost hmem
      rw [hcost, h.read link hlink]
      exact h.cost link hlink l hmem (congrArg Prod.fst hkey) (congrArg Prod.snd hkey)
  have hnone : ∀ ls : List AdjLink, (∀ l ∈ ls, l.a ≠ l.b) → ∀ x, between ls x x = 0 := by
    intro ls hls x
    have hnil : ls.filter (hasKey ends (x, x)) = [] := List.filter_eq_nil_iff.2 fun l hl hx => by
      obtain ⟨-, ha, hb⟩ := mem_ends.1 (List.mem_filter.2 ⟨hl, hx⟩)
      exact hls l hl (ha.trans hb.symm)
    rw [between, hnil]
    rfl
  intro x y
  rcases Nat.lt_trichotomy x y with hxy | rfl | hxy
  · exact hlt x y hxy
  · rw [hnone T h.noLoop, hnone _ fun l hl => ?_]
    · rfl
    · obtain ⟨l', hl', rfl⟩ := List.mem_map.1 hl
      exact h.noLoop l' (mem_of_mem_printedTcp hl')
  · rw [hT.symm, hlt y x hxy, add_comm]

end PrintGraph

end Raims
