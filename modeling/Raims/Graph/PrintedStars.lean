import Raims.Graph.LoadPrinted
import Raims.Graph.PairedLinks

/-!
# Which links the stars and single links print (`print_tcp`)

The links of one user with one name, if there are several, are a star. All links of the stars
are printed, with the cost of the first one. Between two users, as many of the other links as
the stars have links in the other direction are left out, and what is left of the other
direction strikes off the rest.
-/

namespace Raims

namespace PrintGraph

open LoadGraph (Conn)
open StrikeOff (hasKey hasKey_iff)

/-- What a star has in common. -/
def starKey (l : AdjLink) : ℕ × String := (l.a, l.tport)

variable {g : AdjGraph} {T visited rest : List AdjLink} {l l' : AdjLink} {n x y : ℕ}

/-! ## Stars -/

theorem sameStar_eq (link : AdjLink) : sameStar link = hasKey starKey (starKey link) := by
  funext test
  rw [Bool.eq_iff_iff, hasKey_iff, sameStar, Bool.and_eq_true, decide_eq_true_eq, decide_eq_true_eq,
    starKey, starKey, Prod.mk.injEq, eq_comm, eq_comm (a := link.tport)]

/-- The loop collects the groups of several links, and leaves the links that are alone. -/
theorem findStars_eq (hn : rest.length ≤ n)
    (hvisited : ∀ v ∈ visited, ∀ l ∈ rest, starKey v ≠ starKey l) :
    findStars n visited rest =
      ((Groups.groups starKey n rest).filter (1 < ·.length),
        visited ++ StrikeOff.alone starKey rest) := by
  induction n generalizing visited rest with
  | zero =>
    obtain rfl := List.length_eq_zero_iff.1 (Nat.le_zero.1 hn)
    rw [findStars, StrikeOff.alone, List.filter_nil, List.append_nil]
    rfl
  | succ n ih =>
    cases rest with
    | nil =>
      rw [findStars, StrikeOff.alone, List.filter_nil, List.append_nil]
      rfl
    | cons link rest =>
      have hlink : ∀ v ∈ visited, starKey v ≠ starKey link := fun v hv =>
        hvisited v hv link List.mem_cons_self
      have hbefore : visited.filter (hasKey starKey (starKey link)) = [] :=
        List.filter_eq_nil_iff.2 fun v hv => by
          rw [hasKey_iff]
          exact hlink v hv
      have hlen : rest.length ≤ n := Nat.le_of_succ_le_succ hn
      have hgroups : Groups.groups starKey (n + 1) (link :: rest) =
          (link :: rest.filter (hasKey starKey (starKey link))) ::
            Groups.groups starKey n (rest.filter (!hasKey starKey (starKey link) ·)) := by
        rw [Groups.groups]
        congr 2
        exact List.filter_congr fun l _ => decide_not
      rw [findStars, sameStar_eq, hbefore, List.nil_append, hgroups]
      by_cases hbehind : rest.filter (hasKey starKey (starKey link)) = []
      · have hother : ∀ l ∈ rest, starKey link ≠ starKey l := fun l hl heq =>
          List.filter_eq_nil_iff.1 hbehind l hl (hasKey_iff.2 heq.symm)
        have hall : rest.filter (!hasKey starKey (starKey link) ·) = rest :=
          List.filter_eq_self.2 fun l hl => by
            rw [Bool.not_eq_true', ← Bool.not_eq_true, hasKey_iff]
            exact (hother l hl).symm
        rw [if_pos hbehind, ih hlen, hbehind, hall, StrikeOff.alone_cons_of_nil hbehind,
          List.append_assoc]
        · rfl
        · intro v hv l hl
          rcases List.mem_append.1 hv with hv | hv
          · exact hvisited v hv l (List.mem_cons_of_mem link hl)
          · rw [List.mem_singleton.1 hv]
            exact hother l hl
      · have hkeep : visited.filter (!hasKey starKey (starKey link) ·) = visited :=
          List.filter_eq_self.2 fun v hv => by
            rw [Bool.not_eq_true', ← Bool.not_eq_true, hasKey_iff]
            exact hlink v hv
        have hpos := List.length_pos_of_ne_nil hbehind
        rw [if_neg hbehind, hkeep, ih (Nat.le_trans (List.length_filter_le _ _) hlen),
          StrikeOff.alone_cons_of_ne_nil hbehind, List.filter_cons_of_pos]
        · rfl
        · rw [decide_eq_true_eq, List.length_cons]
          omega
        · intro v hv l hl
          exact hvisited v hv l (List.mem_cons_of_mem link (List.mem_filter.1 hl).1)

/-! ## The lines -/

/-- The cost that is printed for a link: that of the first link of its star. -/
def starCost (T : List AdjLink) (l : AdjLink) : AdjCost :=
  ((T.filter (hasKey starKey (starKey l))).head?.map AdjLink.cost).getD l.cost

/-- A printed link as it is read back. -/
def readLink (T : List AdjLink) (l : AdjLink) : AdjLink :=
  { l with cost := readCost (starCost T l) }

/-- The links that are printed. -/
def printedTcp (T : List AdjLink) : List AdjLink :=
  let r := findStars T.length [] T
  let unused := dropReverse r.1 r.2
  r.1.flatten ++ singles unused.length unused

/-- A link as a connection by name. -/
def toConn (g : AdjGraph) (l : AdjLink) : Conn :=
  ⟨userName g l.a, userName g l.b, text l.tport, text l.type, l.cost⟩

theorem starCost_of_mem {link : AdjLink} {others : List AdjLink}
    (hstar : T.filter (hasKey starKey (starKey link)) = link :: others) (hl : l ∈ link :: others) :
    starCost T l = link.cost ∧ l.a = link.a ∧ l.tport = link.tport ∧ l ∈ T := by
  rw [← hstar, List.mem_filter, hasKey_iff] at hl
  obtain ⟨hmem, hkey⟩ := hl
  refine ⟨?_, congrArg Prod.fst hkey, congrArg Prod.snd hkey, hmem⟩
  rw [starCost, hkey, hstar]
  rfl

/-- Every link is in a star, possibly by itself. -/
theorem exists_star (hl : l ∈ T) :
    ∃ link others, T.filter (hasKey starKey (starKey l)) = link :: others ∧ link ∈ T ∧
      starKey link = starKey l := by
  obtain ⟨link, others, hstar⟩ := List.exists_cons_of_ne_nil
    (List.ne_nil_of_mem (List.mem_filter.2 ⟨hl, hasKey_iff.2 (rfl : starKey l = starKey l)⟩))
  have hlink : link ∈ T.filter (hasKey starKey (starKey l)) := hstar ▸ List.mem_cons_self
  rw [List.mem_filter, hasKey_iff] at hlink
  exact ⟨link, others, hstar, hlink⟩

/-- The line of a star is read as its links, all of one cost. -/
theorem conns_starLine (htype : ∀ l ∈ T, l.type = "tcp")
    (hl : l ∈ T) : ∃ line, starLine g (T.filter (hasKey starKey (starKey l))) = some line ∧
      line.conns = (T.filter (hasKey starKey (starKey l))).map fun l => toConn g (readLink T l) := by
  obtain ⟨link, others, hstar, hlink, hkey⟩ := exists_star hl
  rw [← hkey] at hstar ⊢
  rw [hstar]
  refine ⟨_, rfl, ?_⟩
  have htcp : stmtOf (text link.type) = .link := by
    rw [htype link hlink]
    rfl
  rw [Line.conns, if_pos (by rw [List.length_cons, List.length_map, List.length_cons]; omega), htcp,
    LoadGraph.round, List.tail_cons, List.map_map]
  refine List.map_congr_left fun cur hcur => ?_
  obtain ⟨hcost, ha, htport, hmem⟩ := starCost_of_mem hstar hcur
  simp only [Function.comp_apply, List.headD_cons, toConn, readLink, hcost, ha, htport,
    htype link hlink, htype cur hmem]

theorem conns_starLines (htype : ∀ l ∈ T, l.type = "tcp") {gs : List (List AdjLink)}
    (hgs : ∀ s ∈ gs, ∃ l ∈ T, s = T.filter (hasKey starKey (starKey l))) :
    (gs.filterMap (starLine g)).flatMap Line.conns =
      gs.flatten.map fun l => toConn g (readLink T l) := by
  induction gs with
  | nil => rfl
  | cons s gs ih =>
    obtain ⟨l, hl, rfl⟩ := hgs s List.mem_cons_self
    obtain ⟨line, hline, hconns⟩ := conns_starLine (g := g) htype hl
    rw [List.filterMap_cons_some hline, List.flatMap_cons, hconns, List.flatten_cons,
      List.map_append, ih fun s hs => hgs s (List.mem_cons_of_mem _ hs)]

/-- A link that is alone is a star of its own. -/
theorem filter_of_mem_alone (hl : l ∈ StrikeOff.alone starKey T) :
    T.filter (hasKey starKey (starKey l)) = [l] := by
  obtain ⟨hmem, hone⟩ := List.mem_filter.1 hl
  rw [decide_eq_true_eq, List.countP_eq_length_filter, List.length_eq_one_iff] at hone
  obtain ⟨l', hl'⟩ := hone
  have hself : l ∈ T.filter (hasKey starKey (starKey l)) :=
    List.mem_filter.2 ⟨hmem, hasKey_iff.2 rfl⟩
  rw [hl', List.mem_singleton] at hself
  rw [hl', hself]

/-! ## The links that are struck off -/

theorem isReverse_eq (cur : AdjLink) : isReverse cur = hasKey ends (ends cur).swap := by
  funext test
  rw [Bool.eq_iff_iff, hasKey_iff, isReverse, Bool.and_eq_true, decide_eq_true_eq,
    decide_eq_true_eq, ends, ends, Prod.swap_prod_mk, Prod.mk.injEq]

theorem dropReverse_eq (stars : List (List AdjLink)) (unused : List AdjLink) :
    dropReverse stars unused =
      StrikeOff.strike ends unused (stars.flatten.map fun cur => (ends cur).swap) := by
  rw [dropReverse, StrikeOff.strike, List.foldl_map]
  simp only [isReverse_eq]

theorem singles_eq (n : ℕ) (unused : List AdjLink) :
    singles n unused = StrikeOff.pairOff ends Prod.swap n unused := by
  induction n generalizing unused with
  | zero => rfl
  | succ n ih =>
    cases unused with
    | nil => rfl
    | cons link rest => rw [singles, StrikeOff.pairOff, ih, isReverse_eq]

/-- The stars, links of one user with one name. -/
def stars (T : List AdjLink) : List (List AdjLink) :=
  (Groups.groups starKey T.length T).filter (1 < ·.length)

/-- The links that are alone and are not struck off by a star. -/
def unstruck (T : List AdjLink) : List AdjLink :=
  StrikeOff.strike ends (StrikeOff.alone starKey T)
    ((stars T).flatten.map fun cur => (ends cur).swap)

theorem findStars_self (T : List AdjLink) :
    findStars T.length [] T = (stars T, StrikeOff.alone starKey T) := by
  rw [findStars_eq (Nat.le_refl _) (List.forall_mem_nil _), List.nil_append, stars]

theorem printedTcp_eq (T : List AdjLink) :
    printedTcp T = (stars T).flatten ++
      StrikeOff.pairOff ends Prod.swap (unstruck T).length (unstruck T) := by
  rw [printedTcp, findStars_self]
  show (stars T).flatten ++ singles _ (dropReverse (stars T) (StrikeOff.alone starKey T)) = _
  rw [singles_eq, dropReverse_eq, unstruck]

theorem mem_unstruck (hl : l ∈ unstruck T) : l ∈ StrikeOff.alone starKey T :=
  (StrikeOff.strike_sublist ends _ _).subset hl

/-- The stars and the single links that are printed, each a star of its own. -/
def printedStars (T : List AdjLink) : List (List AdjLink) :=
  stars T ++ (StrikeOff.pairOff ends Prod.swap (unstruck T).length (unstruck T)).map ([·])

theorem printTcp_eq (g : AdjGraph) (T : List AdjLink) :
    printTcp g T = (printedStars T).filterMap (starLine g) := by
  rw [printTcp, findStars_self]
  show _ ++ (singles _ (dropReverse (stars T) (StrikeOff.alone starKey T))).filterMap _ = _
  rw [singles_eq, dropReverse_eq, printedStars, List.filterMap_append, List.filterMap_map]
  rfl

theorem exists_of_mem_printedStars {s : List AdjLink} (hs : s ∈ printedStars T) :
    ∃ l ∈ T, s = T.filter (hasKey starKey (starKey l)) := by
  rcases List.mem_append.1 hs with hs | hs
  · exact (Groups.mem_groups (Nat.le_refl _)).1 (List.mem_filter.1 hs).1
  · obtain ⟨l, hl, rfl⟩ := List.mem_map.1 hs
    have halone := mem_unstruck ((StrikeOff.pairOff_sublist ends Prod.swap _ _).subset hl)
    exact ⟨l, (List.mem_filter.1 halone).1, (filter_of_mem_alone halone).symm⟩

theorem exists_of_mem_printTcp {line : Line} (hline : line ∈ printTcp g T) :
    ∃ l ∈ T, starLine g (T.filter (hasKey starKey (starKey l))) = some line := by
  rw [printTcp_eq] at hline
  obtain ⟨s, hs, hline⟩ := List.mem_filterMap.1 hline
  obtain ⟨l, hl, rfl⟩ := exists_of_mem_printedStars hs
  exact ⟨l, hl, hline⟩

/-- The lines of the `tcp` links are read as the links that are printed. -/
theorem conns_printTcp (g : AdjGraph) (htype : ∀ l ∈ T, l.type = "tcp") :
    (printTcp g T).flatMap Line.conns =
      (printedTcp T).map fun l => toConn g (readLink T l) := by
  have hflatten : (printedStars T).flatten = printedTcp T := by
    rw [printedTcp_eq, printedStars, List.flatten_append, ← List.flatMap_def,
      List.flatMap_singleton']
  rw [printTcp_eq, conns_starLines htype fun s => exists_of_mem_printedStars, hflatten]

/-! ## Between two users -/

/-- A user has several links of a name. -/
def starAt (T : List AdjLink) (x : ℕ) (tport : String) : Bool :=
  1 < T.countP (hasKey starKey (x, tport))

/-- The links from one user to another that are in stars. -/
def tied (T : List AdjLink) (x y : ℕ) : List AdjLink :=
  (T.filter (hasKey ends (x, y))).filter fun l => starAt T x l.tport

/-- The links from one user to another that are alone. -/
def loose (T : List AdjLink) (x y : ℕ) : List AdjLink :=
  (T.filter (hasKey ends (x, y))).filter fun l => !starAt T x l.tport

theorem tied_append_loose_perm (T : List AdjLink) (x y : ℕ) :
    (tied T x y ++ loose T x y).Perm (T.filter (hasKey ends (x, y))) :=
  List.filter_append_perm _ _

theorem filter_stars_perm (T : List AdjLink) (x y : ℕ) :
    ((stars T).flatten.filter (hasKey ends (x, y))).Perm (tied T x y) := by
  have hall := Groups.flatten_filter_groups_perm starKey (1 < ·) T
  refine (hall.filter _).trans (.of_eq ?_)
  rw [tied, List.filter_filter, List.filter_filter]
  refine List.filter_congr fun l _ => ?_
  rw [Bool.and_comm]
  by_cases hl : hasKey ends (x, y) l = true
  · have ha : l.a = x := congrArg Prod.fst (hasKey_iff.1 hl)
    rw [hl, ← ha]
    rfl
  · rw [Bool.not_eq_true] at hl
    rw [hl, Bool.and_false, Bool.and_false]

theorem filter_alone (T : List AdjLink) (x y : ℕ) :
    (StrikeOff.alone starKey T).filter (hasKey ends (x, y)) = loose T x y := by
  rw [loose, StrikeOff.alone, List.filter_filter, List.filter_filter]
  refine List.filter_congr fun l hl => ?_
  rw [Bool.and_comm]
  by_cases hends : hasKey ends (x, y) l = true
  · have ha : l.a = x := congrArg Prod.fst (hasKey_iff.1 hends)
    have hpos : 0 < T.countP (hasKey starKey (starKey l)) :=
      List.countP_pos_iff.2 ⟨l, hl, hasKey_iff.2 rfl⟩
    have hkey : starKey l = (x, l.tport) := ha ▸ rfl
    rw [hends, Bool.and_true, Bool.and_true, starAt, ← hkey, ← decide_not, decide_eq_decide]
    omega
  · rw [Bool.not_eq_true] at hends
    rw [hends, Bool.and_false, Bool.and_false]

theorem filter_unstruck (T : List AdjLink) (x y : ℕ) :
    (unstruck T).filter (hasKey ends (x, y)) = (loose T x y).drop (tied T y x).length := by
  have hcount : ((stars T).flatten.map fun cur => (ends cur).swap).countP (· = (x, y)) =
      (tied T y x).length := by
    rw [← (filter_stars_perm T y x).length_eq, ← List.countP_eq_length_filter, List.countP_map]
    refine List.countP_congr fun l _ => ?_
    rw [Function.comp_apply, decide_eq_true_eq, hasKey_iff, Prod.swap_eq_iff_eq_swap,
      Prod.swap_prod_mk]
  rw [unstruck, StrikeOff.filter_strike, filter_alone, hcount]

/-- The links of the user that is earlier are printed in this direction. -/
theorem filter_printedTcp (hsort : SourceSorted T) (hxy : x < y)
    (hlen : (T.filter (hasKey ends (x, y))).length = (T.filter (hasKey ends (y, x))).length) :
    ((printedTcp T).filter (hasKey ends (x, y))).Perm
        (tied T x y ++ (loose T x y).drop (tied T y x).length) ∧
      ((printedTcp T).filter (hasKey ends (y, x))).Perm (tied T y x) := by
  have hpair : (unstruck T).Pairwise fun l l' => ends l = (x, y).swap → ends l' ≠ (x, y) := by
    have hsub : (unstruck T).Sublist T :=
      (StrikeOff.strike_sublist ends _ _).trans List.filter_sublist
    refine (hsort.sublist hsub).imp fun {l l'} hle hl hl' => ?_
    have hy : l.a = y := congrArg Prod.fst hl
    have hx : l'.a = x := congrArg Prod.fst hl'
    omega
  have hne : (x, y).swap ≠ (x, y) := by
    intro heq
    exact Nat.ne_of_gt hxy (congrArg Prod.fst heq)
  obtain ⟨hfirst, hsecond⟩ := @StrikeOff.filter_pairOff _ _ _ ends (unstruck T) (x, y) _ Prod.swap
    Prod.swap_swap hne (Nat.le_refl _) hpair
  rw [filter_unstruck] at hfirst
  rw [filter_unstruck, filter_unstruck, Prod.swap_prod_mk] at hsecond
  rw [printedTcp_eq, List.filter_append, List.filter_append, hfirst, hsecond]
  -- as many links are left in one direction as in the other
  have hxlen := (tied_append_loose_perm T x y).length_eq
  have hylen := (tied_append_loose_perm T y x).length_eq
  rw [List.length_append] at hxlen hylen
  have hnil : ((loose T y x).drop (tied T x y).length).drop
      ((loose T x y).drop (tied T y x).length).length = [] := by
    rw [List.drop_drop, List.drop_eq_nil_iff, List.length_drop]
    omega
  rw [hnil, List.append_nil]
  exact ⟨(filter_stars_perm T x y).append_right _, filter_stars_perm T y x⟩

end PrintGraph

end Raims
