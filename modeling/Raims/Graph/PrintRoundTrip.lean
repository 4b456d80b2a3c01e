import Raims.Graph.PrintedGraph

/-!
# Graphs that are printed and loaded

Loading what was printed gives the same users, and between every two of them the same links
when the text can tell them. The text has to be readable: the names are words, and the lines
are not too long and do not have too many words.
-/

namespace Raims

namespace PrintGraph

open LoadGraph (Conn GraphOp)
open StrikeOff (hasKey hasKey_iff)

variable {g : AdjGraph} {ls : List AdjLink} {l : AdjLink} {a b s : String} {i x y start : ℕ}

/-! ## Names -/

/-- A word of printable characters. -/
def IsName (s : String) : Prop := s ≠ "" ∧ ∀ c ∈ s.toList, 0x20 < c.toNat ∧ c.toNat < 0x80

instance (s : String) : Decidable (IsName s) :=
  @instDecidableAnd _ _ _ (List.decidableBAll _ _)

theorem nameOf_text (hs : ∀ c ∈ s.toList, c.toNat < 0x100) : nameOf (text s) = s := by
  rw [nameOf, text, List.map_map]
  have hchar : ∀ c ∈ s.toList,
      ((fun c : UInt8 => Char.ofNat c.toNat) ∘ fun c : Char => UInt8.ofNat c.toNat) c = c := by
    intro c hc
    have hmod : (UInt8.ofNat c.toNat).toNat = c.toNat :=
      UInt8.toNat_ofNat'.trans (Nat.mod_eq_of_lt (hs c hc))
    rw [Function.comp_apply, hmod, Char.ofNat_toNat]
  rw [List.map_congr_left hchar, List.map_id', String.ofList_toList]

theorem IsName.nameOf_text (h : IsName s) : nameOf (text s) = s :=
  PrintGraph.nameOf_text fun c hc => Nat.lt_trans (h.2 c hc).2 (by decide)

theorem IsName.isWord (h : IsName s) : IsWord (text s) := by
  constructor
  · intro hnil
    have hlist : s.toList = [] := List.map_eq_nil_iff.1 hnil
    exact h.1 (String.toList_inj.1 hlist)
  · intro c hc
    obtain ⟨d, hd, rfl⟩ := List.mem_map.1 hc
    obtain ⟨hlo, hhi⟩ := h.2 d hd
    have hmod : (UInt8.ofNat d.toNat).toNat = d.toNat :=
      UInt8.toNat_ofNat'.trans (Nat.mod_eq_of_lt (Nat.lt_trans hhi (by decide)))
    rw [LoadGraph.isBlank, Bool.or_eq_false_iff, decide_eq_false_iff_not, decide_eq_false_iff_not,
      UInt8.le_iff_toNat_le, UInt8.le_iff_toNat_le, hmod]
    constructor
    · show ¬ d.toNat ≤ 32
      omega
    · show ¬ 128 ≤ d.toNat
      omega

/-! ## Readable graphs -/

/-- At most 100 words with the one in front, and a line that fits the buffer. -/
def Line.Short (l : Line) : Prop :=
  (l.users ++ costWords l.cost).length < 100 ∧ l.render.length ≤ LoadGraph.maxLine

instance (l : Line) : Decidable l.Short := inferInstanceAs (Decidable (_ ∧ _))

/-- The names are words, no name is there twice, and the lines are read whole, except that the
line with all users is read up to the 99th. -/
structure Readable (g : AdjGraph) (start : ℕ) : Prop where
  nodup : (names g).Nodup
  userNames : ∀ u ∈ names g, IsName u ∧ u.toList.head? ≠ some ':'
  tports : ∀ l ∈ allLinks g, IsName l.tport
  startIdx : g.userTab ≠ [] → start < g.userTab.length
  startLine : (joinWords (text "start") [userName g start]).length ≤ LoadGraph.maxLine
  nodeLine : (joinWords (text "node") ((names g).map text)).length ≤ LoadGraph.maxLine
  stars : ∀ l ∈ table g "tcp", ∀ line ∈
    starLine g ((table g "tcp").filter (hasKey starKey (starKey l))), line.Short
  meshes : ∀ type, type = "mesh" ∨ type = "pgm" → ∀ l ∈ table g type, ∀ line ∈
    meshLine g ((table g type).filter fun k => k.tport = l.tport), line.Short

/-- The name that is read for the user to start with. -/
def startName (g : AdjGraph) (start : ℕ) : Option String :=
  (userAt g start).map fun u => nameOf ((text u).take 79)

/-- The users behind the 99th have links, unless it is the one to start with; and the name of
that one is not cut, or what is left of it is the name of a user. -/
structure UsersNamed (g : AdjGraph) (start : ℕ) : Prop where
  late : ∀ i, 99 ≤ i → i < g.userTab.length → userAt g i = startName g start ∨ g.links i ≠ []
  start : ∀ u, startName g start = some u → u ∈ names g

/-- What is loaded has the same users and, from each to each, the same links. -/
def RoundTrips (g : AdjGraph) (start pathLimit : ℕ) : Prop :=
  (names (loadAdjGraph pathLimit (printGraph g start))).Perm (names g) ∧
    ∀ a ∈ names g, ∀ b ∈ names g,
      linksOf (loadAdjGraph pathLimit (printGraph g start)) a b = linksOf g a b

theorem isColon_text (hs : ∀ c ∈ s.toList, c.toNat < 0x80) (hcolon : s.toList.head? ≠ some ':') :
    LoadGraph.isColon (text s) = false := by
  rw [LoadGraph.isColon, decide_eq_false_iff_not, text, List.head?_map]
  intro hhead
  obtain ⟨c, hc, hchar⟩ := Option.map_eq_some_iff.1 hhead
  have hlt := hs c (List.mem_of_mem_head? hc)
  have hnat : c.toNat = 0x3a := by
    have hmod := congrArg UInt8.toNat hchar
    rwa [UInt8.toNat_ofNat', Nat.mod_eq_of_lt (Nat.lt_trans hlt (by decide))] at hmod
  refine hcolon (hc.trans (congrArg some ?_))
  rw [← Char.ofNat_toNat c, hnat]

theorem userName_of_userAt (h : userAt g i = some s) : userName g i = text s := by
  rw [userAt] at h
  rw [userName, h, Option.getD_some]

theorem exists_userAt (hi : i < g.userTab.length) : ∃ s, userAt g i = some s ∧ s ∈ names g := by
  refine ⟨g.userTab[i].user, ?_, List.mem_map_of_mem (List.getElem_mem hi)⟩
  rw [userAt, List.getElem?_eq_getElem hi, Option.map_some]

/-- A user's word. -/
theorem Readable.user (h : Readable g start) (hi : i < g.userTab.length) :
    IsWord (userName g i) ∧ LoadGraph.isColon (userName g i) = false ∧
      userAt g i = some (nameOf (userName g i)) := by
  obtain ⟨s, hs, hmem⟩ := exists_userAt hi
  obtain ⟨hname, hcolon⟩ := h.userNames s hmem
  rw [userName_of_userAt hs, hname.nameOf_text]
  exact ⟨hname.isWord, isColon_text (fun c hc => (hname.2 c hc).2) hcolon, hs⟩

/-- Every user has an index of its own. -/
theorem userAt_inj (hg : (names g).Nodup) (hx : userAt g x = some a) :
    userAt g i = some a ↔ i = x := by
  constructor
  · intro hi
    rw [userAt_eq_getElem?] at hi hx
    obtain ⟨hlt, -⟩ := List.getElem?_eq_some_iff.1 hi
    exact (List.getElem?_inj hlt hg).1 (hi.trans hx.symm)
  · rintro rfl
    exact hx

/-- The links from one user to another, by the indexes. -/
theorem linksOf_eq (hg : (names g).Nodup) (hx : userAt g x = some a) (hy : userAt g y = some b) :
    linksOf g a b = between (allLinks g) x y := by
  rw [linksOf, between]
  refine congrArg _ (congrArg (List.map kindOf) (List.filter_congr fun l _ => ?_))
  rw [StrikeOff.hasKey, decide_eq_decide, userAt_inj hg hx, userAt_inj hg hy, ends, Prod.mk.injEq]

/-! ## The lines of a readable graph -/

theorem fits_of_short {line : Line} (htype : isType line.type) (htport : IsWord line.tport)
    (husers : ∀ u ∈ line.users, IsWord u ∧ LoadGraph.isColon u = false) (h : line.Short) :
    line.Fits :=
  ⟨htype, htport, husers, h.1, h.2⟩

theorem isType_text {type : String} (h : type = "tcp" ∨ type = "mesh" ∨ type = "pgm") :
    isType (text type) := by
  rcases h with rfl | rfl | rfl
  · exact .inl rfl
  · exact .inr (.inl rfl)
  · exact .inr (.inr rfl)

theorem Readable.fits_starLine (h : Readable g start) (hg : Paired g) {line : Line}
    (hl : l ∈ table g "tcp")
    (hline : starLine g ((table g "tcp").filter (hasKey starKey (starKey l))) = some line) :
    line.Fits := by
  have hshort := h.stars l hl line hline
  have hmem : ∀ k ∈ (table g "tcp").filter (hasKey starKey (starKey l)), k ∈ allLinks g :=
    fun k hk => (mem_table.1 (List.mem_filter.1 hk).1).1
  cases hs : (table g "tcp").filter (hasKey starKey (starKey l)) with
  | nil =>
    rw [hs] at hline
    exact nomatch hline
  | cons link others =>
    rw [hs] at hline hmem
    obtain rfl := Option.some.inj hline
    have hlink := hmem link List.mem_cons_self
    refine fits_of_short (isType_text (hg.types link hlink)) (h.tports link hlink).isWord ?_ hshort
    intro u hu
    have hlt : ∀ k ∈ link :: others, k.a < g.userTab.length ∧ k.b < g.userTab.length := fun k hk =>
      lt_length_of_mem_allLinks hg.wf (hmem k hk)
    rcases List.mem_cons.1 hu with rfl | hu
    · have hname := h.user (hlt link List.mem_cons_self).1
      exact ⟨hname.1, hname.2.1⟩
    · obtain ⟨k, hk, rfl⟩ := List.mem_map.1 hu
      have hname := h.user (hlt k hk).2
      exact ⟨hname.1, hname.2.1⟩

theorem Readable.fits_meshLine (h : Readable g start) (hg : Paired g) {line : Line} {type : String}
    (htype : type = "mesh" ∨ type = "pgm") (hl : l ∈ table g type)
    (hline : meshLine g ((table g type).filter fun k => k.tport = l.tport) = some line) :
    line.Fits := by
  have hshort := h.meshes type htype l hl line hline
  have hmem : ∀ k ∈ (table g type).filter (fun k => k.tport = l.tport), k ∈ allLinks g :=
    fun k hk => (mem_table.1 (List.mem_filter.1 hk).1).1
  cases hs : (table g type).filter fun k => k.tport = l.tport with
  | nil =>
    rw [hs] at hline
    exact nomatch hline
  | cons link tests =>
    rw [hs] at hline hmem
    obtain rfl := Option.some.inj hline
    have hlink := hmem link List.mem_cons_self
    refine fits_of_short (isType_text (hg.types link hlink)) (h.tports link hlink).isWord ?_ hshort
    intro u hu
    obtain ⟨i, hi, rfl⟩ := List.mem_map.1 hu
    obtain ⟨-, k, hk, rfl⟩ := ((meshUsers_spec link tests).2 i).1 hi
    have hname := h.user (lt_length_of_mem_allLinks hg.wf (hmem k hk)).1
    exact ⟨hname.1, hname.2.1⟩

/-- All lines of a graph that is readable are read whole. -/
theorem Readable.fits (h : Readable g start) (hg : Paired g) :
    ∀ line ∈ printStatements g, line.Fits := by
  have hmesh : ∀ type, type = "mesh" ∨ type = "pgm" → ∀ line ∈ printMesh g (table g type),
      line.Fits := by
    intro type htype line hline
    obtain ⟨s, hs, hline⟩ := List.mem_filterMap.1 hline
    obtain ⟨l, hl, rfl⟩ := (Groups.mem_groups (Nat.le_refl _)).1 hs
    exact h.fits_meshLine hg htype hl hline
  intro line hline
  rw [printStatements, List.mem_append, List.mem_append] at hline
  rcases hline with (hline | hline) | hline
  · obtain ⟨l, hl, hline⟩ := exists_of_mem_printTcp hline
    exact h.fits_starLine hg hl hline
  · exact hmesh "mesh" (.inl rfl) line hline
  · exact hmesh "pgm" (.inr rfl) line hline

/-! ## What is loaded -/

/-- A connection that is printed is between users of the graph, with a type and a name that
one of its links has. -/
theorem Paired.mem_printed (hg : Paired g) (hl : l ∈ printed g) :
    (l.a < g.userTab.length ∧ l.b < g.userTab.length) ∧
      ∃ k ∈ allLinks g, l.type = k.type ∧ l.tport = k.tport := by
  have hmesh : ∀ {type}, l ∈ printedMesh (table g type) →
      (l.a < g.userTab.length ∧ l.b < g.userTab.length) ∧
        ∃ k ∈ allLinks g, l.type = k.type ∧ l.tport = k.tport := by
    intro type hl
    obtain ⟨k, hk, hkind⟩ := type_of_mem_printedMesh hl
    refine ⟨?_, k, (mem_table.1 hk).1, hkind⟩
    have husers : ∀ i ∈ [l.a, l.b], ∃ k ∈ table g type, k.a = i := sources_of_mem_printedMesh hl
    have hlt : ∀ i ∈ [l.a, l.b], i < g.userTab.length := by
      intro i hi
      obtain ⟨k, hk, rfl⟩ := husers i hi
      exact (lt_length_of_mem_allLinks hg.wf (mem_table.1 hk).1).1
    exact ⟨hlt _ List.mem_cons_self, hlt _ (List.mem_cons_of_mem _ List.mem_cons_self)⟩
  rw [printed, List.mem_append, List.mem_append] at hl
  rcases hl with (hl | hl) | hl
  · obtain ⟨k, hk, rfl⟩ := List.mem_map.1 hl
    have hmem := (mem_table.1 (mem_of_mem_printedTcp hk)).1
    have hlt := lt_length_of_mem_allLinks hg.wf hmem
    exact ⟨hlt, k, hmem, rfl, rfl⟩
  · exact hmesh hl
  · exact hmesh hl

/-- The links that connections by name make, by the indexes. -/
theorem Readable.connLinks_eq (h : Readable g start) (hg : Paired g) (hx : userAt g x = some a)
    (hy : userAt g y = some b) :
    connLinks ((printed g).map (toConn g)) a b =
      between (printed g) x y + between (printed g) y x := by
  have huser : ∀ {i j s}, i < g.userTab.length → userAt g j = some s →
      (nameOf (userName g i) = s ↔ i = j) := by
    intro i j s hi hj
    rw [← userAt_inj h.nodup hj, (h.user hi).2.2, Option.some.injEq]
  have hkind : ∀ l ∈ printed g, connKind (toConn g l) = kindOf l := by
    intro l hl
    obtain ⟨-, k, hk, htype, htport⟩ := hg.mem_printed hl
    have hname := (h.tports k hk).nameOf_text
    have hword : nameOf (text k.type) = k.type := by
      rcases hg.types k hk with hk | hk | hk <;> rw [hk] <;> decide
    rw [connKind, kindOf, toConn]
    simp only [htype, htport, hname, hword]
  have hdir : ∀ {i j s t} (p : Conn → Prop) [DecidablePred p], userAt g i = some s →
      userAt g j = some t →
      (∀ l, p (toConn g l) ↔ nameOf (userName g l.a) = s ∧
        nameOf (userName g l.b) = t) →
      ((((printed g).map (toConn g)).filter fun c => p c).map connKind : List LinkKind) =
        ((printed g).filter (hasKey ends (i, j))).map kindOf := by
    intro i j s t p _ hi hj hp
    have hfilter : ((printed g).filter fun l => p (toConn g l)) =
        (printed g).filter (hasKey ends (i, j)) := by
      refine List.filter_congr fun l hl => ?_
      obtain ⟨hlt, -⟩ := hg.mem_printed hl
      rw [StrikeOff.hasKey, decide_eq_decide, hp, huser hlt.1 hi, huser hlt.2 hj, ends,
        Prod.mk.injEq]
    rw [List.filter_map, List.map_map, ← hfilter]
    exact List.map_congr_left fun l hl => hkind l (List.mem_filter.1 hl).1
  rw [connLinks, between, between, hdir (fun c => nameOf c.a = a ∧ nameOf c.b = b) hx hy fun l => .rfl,
    hdir (fun c => nameOf c.b = a ∧ nameOf c.a = b) hy hx fun l => and_comm]

/-- The operations that reading the text gives. -/
theorem Readable.loadGraph_printGraph (h : Readable g start) (hg : Paired g)
    (hne : g.userTab ≠ []) :
    LoadGraph.loadGraph (printGraph g start) =
      (((names g).map text).take 99).map .addUser ++
        ((printed g).map (toConn g)).map .addConn ++
          [.addUser ((userName g start).take 79)] := by
  have hnames : g.userTab.map (fun u => text u.user) = (names g).map text := by
    rw [names, List.map_map]
    rfl
  have hload := loadGraph_lines (h.user (h.startIdx hne)).1 h.startLine (fun w hw => ?_)
    h.nodeLine (h.fits hg)
  · rw [conns_printStatements] at hload
    rw [printGraph, printLines, if_neg hne, hnames]
    exact hload
  · obtain ⟨v, hv, rfl⟩ := List.mem_map.1 hw
    exact (h.userNames v hv).1.isWord

theorem exists_userAt_of_mem (ha : a ∈ names g) : ∃ x, userAt g x = some a := by
  obtain ⟨x, hx⟩ := List.mem_iff_getElem?.1 ha
  exact ⟨x, (userAt_eq_getElem? g x).trans hx⟩

/-- No link is of a user that is not there. -/
theorem between_eq_zero {ls : List AdjLink} {n : ℕ} (hls : ∀ l ∈ ls, l.a < n ∧ l.b < n)
    (hxy : ¬ (x < n ∧ y < n)) : between ls x y = 0 := by
  refine Multiset.eq_zero_iff_forall_notMem.2 fun k hk => ?_
  obtain ⟨l, hl, rfl, rfl, -⟩ := mem_between.1 hk
  exact hxy (hls l hl)

theorem Readable.links_iff (h : Readable g start) (hg : Paired g) (hne : g.userTab ≠ [])
    (pathLimit : ℕ) :
    (∀ a ∈ names g, ∀ b ∈ names g,
        linksOf (loadAdjGraph pathLimit (printGraph g start)) a b = linksOf g a b) ↔
      ReadsBack (allLinks g) (printed g) := by
  have hconns : LoadGraph.connsOf (printGraph g start) = (printed g).map (toConn g) := by
    rw [LoadGraph.connsOf, h.loadGraph_printGraph hg hne, List.filterMap_append,
      List.filterMap_append, List.filterMap_map, List.filterMap_map]
    have hnone : ∀ ls : List Text,
        ls.filterMap (GraphOp.conn? ∘ GraphOp.addUser) = [] := fun ls =>
      List.filterMap_eq_nil_iff.2 fun _ _ => rfl
    have hsome : ∀ cs : List Conn, cs.filterMap (GraphOp.conn? ∘ GraphOp.addConn) = cs :=
      fun _ => List.filterMap_some
    rw [hnone, hsome, List.nil_append]
    exact List.append_nil _
  have hlinks : ∀ {x y a b}, userAt g x = some a → userAt g y = some b →
      (linksOf (loadAdjGraph pathLimit (printGraph g start)) a b = linksOf g a b ↔
        between (allLinks g) x y = between (printed g) x y + between (printed g) y x) := by
    intro x y a b hx hy
    rw [(loadAdjGraph_spec pathLimit _).2.2, hconns, h.connLinks_eq hg hx hy,
      linksOf_eq h.nodup hx hy, eq_comm]
  constructor
  · intro hall x y
    by_cases hxy : x < g.userTab.length ∧ y < g.userTab.length
    · obtain ⟨a, hx, ha⟩ := exists_userAt hxy.1
      obtain ⟨b, hy, hb⟩ := exists_userAt hxy.2
      exact (hlinks hx hy).1 (hall a ha b hb)
    · have hprinted : ∀ l ∈ printed g, l.a < g.userTab.length ∧ l.b < g.userTab.length :=
        fun l hl => (hg.mem_printed hl).1
      rw [between_eq_zero (fun l hl => lt_length_of_mem_allLinks hg.wf hl) hxy,
        between_eq_zero hprinted hxy, between_eq_zero hprinted fun hyx => hxy hyx.symm]
      rfl
  · intro hread a ha b hb
    obtain ⟨x, hx⟩ := exists_userAt_of_mem ha
    obtain ⟨y, hy⟩ := exists_userAt_of_mem hb
    exact (hlinks hx hy).2 (hread x y)

/-- A user is named by the line with all users, by a link, or as the one to start with. -/
theorem Readable.mem_names_loaded (h : Readable g start) (hg : Paired g) (hne : g.userTab ≠ [])
    (pathLimit : ℕ) (v : String) :
    v ∈ names (loadAdjGraph pathLimit (printGraph g start)) ↔
      v ∈ (names g).take 99 ∨
        (∃ l ∈ printed g, userAt g l.a = some v ∨ userAt g l.b = some v) ∨
          startName g start = some v := by
  obtain ⟨u, hstart, -⟩ := exists_userAt (h.startIdx hne)
  have hfirst : v ∈ ((((names g).map text).take 99).map GraphOp.addUser).flatMap namesOf ↔
      v ∈ (names g).take 99 := by
    rw [← List.map_take, List.map_map, List.flatMap_map]
    constructor
    · intro hv
      obtain ⟨s, hs, hv⟩ := List.mem_flatMap.1 hv
      have hname := (h.userNames s (List.mem_of_mem_take hs)).1.nameOf_text
      rw [List.mem_singleton.1 hv, hname]
      exact hs
    · intro hv
      have hname := (h.userNames v (List.mem_of_mem_take hv)).1.nameOf_text
      exact List.mem_flatMap.2 ⟨v, hv, List.mem_singleton.2 hname.symm⟩
  have hlinks : v ∈ (((printed g).map (toConn g)).map GraphOp.addConn).flatMap namesOf ↔
      ∃ l ∈ printed g, userAt g l.a = some v ∨ userAt g l.b = some v := by
    rw [List.map_map, List.flatMap_map, List.mem_flatMap]
    refine exists_congr fun l => and_congr_right fun hl => ?_
    obtain ⟨ha, hb⟩ := (hg.mem_printed hl).1
    rw [(h.user ha).2.2, (h.user hb).2.2, Option.some.injEq, Option.some.injEq]
    show v ∈ [nameOf (userName g l.a), nameOf (userName g l.b)] ↔ _
    rw [List.mem_cons, List.mem_singleton, eq_comm, eq_comm (a := v)]
  have hlast : v ∈ [GraphOp.addUser ((userName g start).take 79)].flatMap namesOf ↔
      startName g start = some v := by
    rw [startName, hstart, Option.map_some, Option.some.injEq, userName_of_userAt hstart,
      List.flatMap_singleton]
    show v ∈ [nameOf ((text u).take 79)] ↔ _
    rw [List.mem_singleton, eq_comm]
  rw [(loadAdjGraph_spec pathLimit _).2.1, h.loadGraph_printGraph hg hne, List.flatMap_append,
    List.flatMap_append, List.mem_append, List.mem_append, hfirst, hlinks, hlast, or_assoc]

/-- When the links are read back, a user is in a connection that is printed if it has a link. -/
theorem ReadsBack.exists_printed_iff (hread : ReadsBack (allLinks g) (printed g)) (hg : Paired g)
    (i : ℕ) : (∃ l ∈ printed g, l.a = i ∨ l.b = i) ↔ g.links i ≠ [] := by
  have hlink : ∀ {k y}, k ∈ between (allLinks g) i y → g.links i ≠ [] := by
    intro k y hk
    obtain ⟨l, hl, ha, -, -⟩ := mem_between.1 hk
    obtain ⟨j, hj⟩ := mem_allLinks hl
    rw [← ha, hg.wf.source j l hj]
    exact List.ne_nil_of_mem hj
  constructor
  · rintro ⟨l, hl, rfl | rfl⟩
    · refine hlink (k := kindOf l) (y := l.b) ?_
      rw [hread, Multiset.mem_add]
      exact .inl (mem_between.2 ⟨l, hl, rfl, rfl, rfl⟩)
    · refine hlink (k := kindOf l) (y := l.a) ?_
      rw [hread, Multiset.mem_add]
      exact .inr (mem_between.2 ⟨l, hl, rfl, rfl, rfl⟩)
  · intro hne
    obtain ⟨l, hl⟩ := List.exists_mem_of_ne_nil _ hne
    have hkind : kindOf l ∈ between (allLinks g) i l.b :=
      mem_between.2 ⟨l, mem_allLinks_of_mem_links hl, hg.wf.source i l hl, rfl, rfl⟩
    rw [hread, Multiset.mem_add] at hkind
    rcases hkind with hkind | hkind
    · obtain ⟨p, hp, ha, -, -⟩ := mem_between.1 hkind
      exact ⟨p, hp, .inl ha⟩
    · obtain ⟨p, hp, -, hb, -⟩ := mem_between.1 hkind
      exact ⟨p, hp, .inr hb⟩

/-- When the links are read back, the users are if all of them are named. -/
theorem Readable.names_iff (h : Readable g start) (hg : Paired g) (hne : g.userTab ≠ [])
    (hread : ReadsBack (allLinks g) (printed g)) (pathLimit : ℕ) :
    (names (loadAdjGraph pathLimit (printGraph g start))).Perm (names g) ↔
      UsersNamed g start := by
  have hlinked : ∀ {i v}, userAt g i = some v →
      ((∃ l ∈ printed g, userAt g l.a = some v ∨ userAt g l.b = some v) ↔ g.links i ≠ []) := by
    intro i v hi
    rw [← hread.exists_printed_iff hg i]
    refine exists_congr fun l => and_congr_right fun _ => ?_
    rw [userAt_inj h.nodup hi, userAt_inj h.nodup hi]
  have hearly : ∀ {i v}, userAt g i = some v → (v ∈ (names g).take 99 ↔ i < 99) := by
    intro i v hi
    have hget := (userAt_eq_getElem? g i).symm.trans hi
    constructor
    · intro hv
      obtain ⟨j, hj⟩ := List.mem_iff_getElem?.1 hv
      rw [List.getElem?_take] at hj
      split at hj
      · next hlt =>
          have hji : j = i := (userAt_inj h.nodup hi).1 ((userAt_eq_getElem? g j).trans hj)
          rwa [← hji]
      · exact nomatch hj
    · intro hlt
      refine List.mem_iff_getElem?.2 ⟨i, ?_⟩
      rw [List.getElem?_take, if_pos hlt, hget]
  rw [List.perm_ext_iff_of_nodup (loadAdjGraph_spec pathLimit _).1 h.nodup]
  constructor
  · intro hall
    constructor
    · intro i hi hlt
      obtain ⟨v, hv, hmem⟩ := exists_userAt hlt
      rcases (h.mem_names_loaded hg hne pathLimit v).1 ((hall v).2 hmem) with hv' | hv' | hv'
      · exact absurd ((hearly hv).1 hv') (Nat.not_lt.2 hi)
      · exact .inr ((hlinked hv).1 hv')
      · exact .inl (hv.trans hv'.symm)
    · intro u hu
      exact (hall u).1 ((h.mem_names_loaded hg hne pathLimit u).2 (.inr (.inr hu)))
  · intro hnamed v
    rw [h.mem_names_loaded hg hne pathLimit]
    constructor
    · rintro (hv | ⟨l, -, hv | hv⟩ | hv)
      · exact List.mem_of_mem_take hv
      · exact mem_names_of_userAt hv
      · exact mem_names_of_userAt hv
      · exact hnamed.start v hv
    · intro hv
      obtain ⟨i, hi⟩ := exists_userAt_of_mem hv
      by_cases hfirst : i < 99
      · exact .inl ((hearly hi).2 hfirst)
      · rcases hnamed.late i (Nat.le_of_not_lt hfirst) (lt_length_of_userAt hi) with heq | hlinks
        · exact .inr (.inr (heq.symm.trans hi))
        · exact .inr (.inl ((hlinked hi).2 hlinks))

/-- A graph that is readable is loaded as it was when its links are read back and its users
are named. -/
theorem Readable.roundTrips_iff (h : Readable g start) (hg : Paired g) (pathLimit : ℕ) :
    RoundTrips g start pathLimit ↔
      ReadsBack (allLinks g) (printed g) ∧ UsersNamed g start := by
  by_cases hne : g.userTab = []
  · -- nothing is printed
    have hnames : names g = [] := by rw [names, hne, List.map_nil]
    have hprint : printGraph g start = [] := by
      rw [printGraph, printLines, if_pos hne]
      rfl
    have hlen : ∀ i, ¬ i < g.userTab.length := by
      intro i hi
      rw [hne] at hi
      exact Nat.not_lt_zero i hi
    have hzero : ∀ ls : List AdjLink, (∀ l ∈ ls, l.a < g.userTab.length ∧ l.b < g.userTab.length) →
        ∀ x y, between ls x y = 0 := fun ls hls x y => between_eq_zero hls fun hxy => hlen x hxy.1
    constructor
    · refine fun _ => ⟨fun x y => ?_, fun i _ hi => absurd hi (hlen i), fun u hu => ?_⟩
      · have hprinted := hzero (printed g) fun l hl => (hg.mem_printed hl).1
        rw [hzero _ fun l hl => lt_length_of_mem_allLinks hg.wf hl, hprinted, hprinted]
        rfl
      · rw [startName, userAt_eq_none_iff.2 (Nat.le_of_not_lt (hlen start))] at hu
        cases hu
    · intro _
      rw [RoundTrips, hprint, hnames]
      exact ⟨.nil, List.forall_mem_nil _⟩
  · constructor
    · rintro ⟨hnames, hlinks⟩
      have hread := (h.links_iff hg hne pathLimit).1 hlinks
      exact ⟨hread, (h.names_iff hg hne hread pathLimit).1 hnames⟩
    · rintro ⟨hread, hnamed⟩
      exact ⟨(h.names_iff hg hne hread pathLimit).2 hnamed,
        (h.links_iff hg hne pathLimit).2 hread⟩

/-- One user is connected to two others with one name, the second connection has a cost. -/
def starOf (cost : UInt32) : AdjGraph :=
  (((((AdjGraph.empty 8).addUser "A" 0).1.addUser "B" 0).1.addUser "C" 0).1.addConn 0 1 "x" "tcp"
    (.const 1000)).addConn 0 2 "x" "tcp" (.const cost)

theorem paired_starOf (cost : UInt32) : Paired (starOf cost) := by
  have husers : Paired
      ((((AdjGraph.empty 8).addUser "A" 0).1.addUser "B" 0).1.addUser "C" 0).1 :=
    (((Paired.empty 8).addUser "A" 0).addUser "B" 0).addUser "C" 0
  refine (husers.addConn ?_ ?_ "x" (.inl rfl) _).addConn ?_ ?_ "x" (.inl rfl) _ <;> decide

theorem readable_starOf {cost : UInt32} (hcost : cost = 1000 ∨ cost = 2000) :
    Readable (starOf cost) 0 := by
  rcases hcost with rfl | rfl
  · refine ⟨by decide, by decide, by decide, by decide, by decide, by decide, by decide, ?_⟩
    rintro type (rfl | rfl) <;> decide
  · refine ⟨by decide, by decide, by decide, by decide, by decide, by decide, by decide, ?_⟩
    rintro type (rfl | rfl) <;> decide

theorem printable_starOf : Printable (starOf 1000) := by
  have hmesh : ∀ type, table (starOf 1000) type = [] →
      ∀ t, MeshAgrees ((table (starOf 1000) type).filter fun l => l.tport = t) := by
    intro type hnil t
    rw [hnil]
    exact ⟨List.forall_mem_nil _, List.forall_mem_nil _, List.forall_mem_nil _,
      List.forall_mem_nil _⟩
  refine ⟨⟨by decide, by decide, fun x y hxy => ?_, by decide, by decide⟩,
    hmesh "mesh" (by decide), hmesh "pgm" (by decide)⟩
  -- from an earlier user to a later one, all links are in the star
  have hstar : ∀ l ∈ table (starOf 1000) "tcp", l.a < l.b →
      starAt (table (starOf 1000) "tcp") l.a l.tport = true := by decide
  have hnil : loose (table (starOf 1000) "tcp") x y = [] := by
    refine List.eq_nil_iff_forall_not_mem.2 fun l hl => ?_
    obtain ⟨⟨hmem, rfl, rfl⟩, hloose⟩ := mem_loose.1 hl
    rw [hstar l hmem hxy] at hloose
    exact Bool.noConfusion hloose
  rw [hnil]
  exact .nil

theorem usersNamed_starOf : UsersNamed (starOf 1000) 0 where
  late := by
    intro i hi hlt
    have hlen : (starOf 1000).userTab.length = 3 := rfl
    omega
  start := by
    intro u hu
    have hname : startName (starOf 1000) 0 = some "A" := by decide
    obtain rfl := Option.some.inj (hname.symm.trans hu)
    decide

end PrintGraph

end Raims
