import Raims.Graph.CostRoundTrip
import Raims.Graph.LoadStatements
import Raims.Graph.PrintGraph

/-!
# Loading what was printed

A printed line of words that have no blanks, that is not too long and does not have too many
words, is read as the statement it was printed from. Its cost is what `parse` makes of its
text.
-/

namespace Raims

namespace PrintGraph

open LoadGraph (newline isBlank isColon)

/-! ## Words -/

/-- A word that `split_args` gives back. -/
structure IsWord (w : Text) : Prop where
  ne_nil : w ≠ []
  noBlank : ∀ c ∈ w, isBlank c = false

theorem splitOnP_joinWords {first : Text} {words : List Text} (hfirst : ∀ c ∈ first, isBlank c = false)
    (hwords : ∀ w ∈ words, IsWord w) :
    (joinWords first words).splitOnP isBlank = first :: words := by
  induction words generalizing first with
  | nil =>
    rw [joinWords, List.flatMap_nil, List.append_nil]
    exact List.splitOnP_eq_singleton hfirst
  | cons w words ih =>
    have hrest : joinWords w words = w ++ words.flatMap fun w => 0x20 :: w := rfl
    rw [joinWords, List.flatMap_cons, List.cons_append,
      List.splitOnP_append_cons_of_forall_mem hfirst 0x20 (by decide), ← hrest,
      ih (hwords w List.mem_cons_self).noBlank fun w' hw' => hwords w' (List.mem_cons_of_mem w hw')]

theorem mem_joinWords {first : Text} {words : List Text} {c : UInt8} (hc : c ∈ joinWords first words) :
    c ∈ first ∨ c = 0x20 ∨ ∃ w ∈ words, c ∈ w := by
  rw [joinWords, List.mem_append, List.mem_flatMap] at hc
  rcases hc with hc | ⟨w, hw, hc⟩
  · exact .inl hc
  · rcases List.mem_cons.1 hc with rfl | hc
    · exact .inr (.inl rfl)
    · exact .inr (.inr ⟨w, hw, hc⟩)

/-- The last character is one of a word. -/
theorem getLast_joinWords {first : Text} {words : List Text} (hfirst : IsWord first)
    (hwords : ∀ w ∈ words, IsWord w) (hne : joinWords first words ≠ []) :
    isBlank ((joinWords first words).getLast hne) = false := by
  induction words using List.reverseRecOn with
  | nil =>
    have heq : joinWords first [] = first := List.append_nil first
    simp only [heq]
    exact hfirst.noBlank _ (List.getLast_mem _)
  | append_singleton words w _ =>
    have hw := hwords w (List.mem_append_right _ List.mem_cons_self)
    have heq : joinWords first (words ++ [w]) = (joinWords first words ++ [0x20]) ++ w := by
      rw [joinWords, List.flatMap_append, joinWords]
      simp
    simp only [heq]
    rw [List.getLast_append_of_ne_nil _ hw.ne_nil]
    exact hw.noBlank _ (List.getLast_mem _)

/-- A line of words is read as those words, a hundred of them at most. -/
theorem lineArgs_joinWords {first : Text} {words : List Text} (hfirst : IsWord first)
    (hhash : first.head? ≠ some 0x23) (hwords : ∀ w ∈ words, IsWord w)
    (hlen : (joinWords first words).length ≤ LoadGraph.maxLine) :
    LoadGraph.lineArgs (joinWords first words) = some (true, (first :: words).take 100) := by
  obtain ⟨c, first', rfl⟩ := List.exists_cons_of_ne_nil hfirst.ne_nil
  have hcons : joinWords (c :: first') words = c :: joinWords first' words := rfl
  have hne : joinWords (c :: first') words ≠ [] := List.cons_ne_nil _ _
  have hc : isBlank c = false := hfirst.noBlank c List.mem_cons_self
  have htrim : ((joinWords (c :: first') words).take LoadGraph.maxLine).rdropWhile isBlank =
      joinWords (c :: first') words := by
    rw [List.take_of_length_le hlen, List.rdropWhile_eq_self_iff]
    intro h
    rw [getLast_joinWords hfirst hwords h]
    exact Bool.false_ne_true
  have hnul : (joinWords (c :: first') words).takeWhile (· ≠ 0) = joinWords (c :: first') words := by
    rw [List.takeWhile_eq_self_iff]
    intro c' hc'
    rw [decide_eq_true_eq]
    rintro rfl
    rcases mem_joinWords hc' with h | h | ⟨w, hw, h⟩
    · exact absurd (hfirst.noBlank 0 h) (by decide)
    · exact absurd h (by decide)
    · exact absurd ((hwords w hw).noBlank 0 h) (by decide)
  have hargs : LoadGraph.splitArgs (joinWords (c :: first') words) =
      ((c :: first') :: words).take 100 := by
    rw [LoadGraph.splitArgs, hnul, splitOnP_joinWords hfirst.noBlank hwords]
    congr 1
    refine List.filter_eq_self.2 fun w hw => ?_
    rw [decide_eq_true_eq]
    rcases List.mem_cons.1 hw with rfl | hw
    · exact hfirst.ne_nil
    · exact (hwords w hw).ne_nil
  rw [LoadGraph.lineArgs]
  simp only [htrim]
  rw [if_neg, hargs, if_neg, hcons, List.head?_cons, Option.any_some, hc]
  · rfl
  · exact List.cons_ne_nil _ _
  · rw [not_or]
    exact ⟨hne, hhash⟩

/-! ## Statements -/

/-- `parse` of what `print_cost` wrote. -/
def readCost (cost : AdjCost) : AdjCost :=
  if costWords cost = [] then .const COST_DEFAULT else cost.received

/-- What the type of a line is read as. -/
def stmtOf (type : Text) : LoadGraph.Stmt :=
  if type = text "tcp" then .link else if type = text "mesh" then .mesh else .pgm

def isType (type : Text) : Prop := type = text "tcp" ∨ type = text "mesh" ∨ type = text "pgm"

/-- A line that is read whole. -/
structure Line.Fits (l : Line) : Prop where
  type : isType l.type
  tport : IsWord l.tport
  users : ∀ u ∈ l.users, IsWord u ∧ isColon u = false
  words : (l.users ++ costWords l.cost).length < 100
  bytes : l.render.length ≤ LoadGraph.maxLine

theorem isKey_append (key : String) {w : Text} (hw : w ≠ []) :
    LoadGraph.isKey key (text key ++ w) = true := by
  have hlen : (text key).length = key.length := by
    rw [text, List.length_map, String.length_toList]
  have hpos := List.length_pos_of_ne_nil hw
  rw [LoadGraph.isKey, Bool.and_eq_true, decide_eq_true_eq, List.length_append, hlen]
  exact ⟨by omega, List.isPrefixOf_iff_prefix.2 (List.prefix_append _ _)⟩

theorem header_of_type {type tport : Text} (htype : isType type) (htport : tport ≠ []) :
    LoadGraph.header (type ++ text "_" ++ tport) = some ⟨stmtOf type, type, tport⟩ := by
  unfold LoadGraph.header
  rcases htype with rfl | rfl | rfl
  · have hkey : LoadGraph.isKey "tcp_" (text "tcp" ++ text "_" ++ tport) = true :=
      isKey_append "tcp_" htport
    rw [hkey, Bool.true_or, if_pos rfl]
    rfl
  · have htcp : LoadGraph.isKey "tcp_" (text "mesh" ++ text "_" ++ tport) = false :=
      Bool.and_false _
    have hlink : LoadGraph.isKey "link_" (text "mesh" ++ text "_" ++ tport) = false :=
      Bool.and_false _
    have hkey : LoadGraph.isKey "mesh_" (text "mesh" ++ text "_" ++ tport) = true :=
      isKey_append "mesh_" htport
    rw [htcp, hlink, hkey, Bool.or_self, if_neg Bool.false_ne_true, if_pos rfl]
    rfl
  · have htcp : LoadGraph.isKey "tcp_" (text "pgm" ++ text "_" ++ tport) = false :=
      Bool.and_false _
    have hlink : LoadGraph.isKey "link_" (text "pgm" ++ text "_" ++ tport) = false :=
      Bool.and_false _
    have hmesh : LoadGraph.isKey "mesh_" (text "pgm" ++ text "_" ++ tport) = false :=
      Bool.and_false _
    have hcube : LoadGraph.isKey "cube_" (text "pgm" ++ text "_" ++ tport) = false :=
      Bool.and_false _
    have hkey : LoadGraph.isKey "pgm_" (text "pgm" ++ text "_" ++ tport) = true :=
      isKey_append "pgm_" htport
    rw [htcp, hlink, hmesh, hcube, hkey, Bool.or_self, if_neg Bool.false_ne_true,
      if_neg Bool.false_ne_true, if_neg Bool.false_ne_true, if_pos rfl]
    rfl

theorem isBlank_of_isDigit {c : UInt8} (h : AdjCost.isDigit c = true) : isBlank c = false := by
  rw [AdjCost.isDigit, decide_eq_true_eq, UInt8.le_iff_toNat_le, UInt8.le_iff_toNat_le] at h
  obtain ⟨hlo, hhi⟩ := h
  change 48 ≤ c.toNat at hlo
  change c.toNat ≤ 57 at hhi
  rw [isBlank, Bool.or_eq_false_iff, decide_eq_false_iff_not, decide_eq_false_iff_not,
    UInt8.le_iff_toNat_le, UInt8.le_iff_toNat_le]
  constructor
  · show ¬ c.toNat ≤ 32
    omega
  · show ¬ 128 ≤ c.toNat
    omega

theorem isWord_str (cost : AdjCost) : IsWord cost.str := by
  have hdec : ∀ n : ℕ, ∀ c ∈ AdjCost.decimal n, isBlank c = false := fun n c hc =>
    isBlank_of_isDigit (LoadGraph.isDigit_decimal hc)
  have hne : ∀ n : ℕ, AdjCost.decimal n ≠ [] := fun n =>
    mt List.map_eq_nil_iff.1 Nat.toDigits_ne_nil
  unfold AdjCost.str
  split
  · exact ⟨hne _, hdec _⟩
  · refine ⟨List.append_ne_nil_of_left_ne_nil (hne _) _, ?_⟩
    intro c hc
    simp only [List.mem_append, List.mem_cons] at hc
    rcases hc with hc | rfl | hc | rfl | hc | rfl | hc
    · exact hdec _ c hc
    · decide
    · exact hdec _ c hc
    · decide
    · exact hdec _ c hc
    · decide
    · exact hdec _ c hc

theorem isWord_costWords (cost : AdjCost) : ∀ w ∈ costWords cost, IsWord w := by
  unfold costWords
  split
  · exact List.forall_mem_nil _
  · intro w hw
    rcases List.mem_cons.1 hw with rfl | hw
    · exact ⟨by decide, by decide +kernel⟩
    · obtain rfl := List.mem_singleton.1 hw
      exact isWord_str cost

theorem finish_ne_costX {s : AdjCost.ParseState} (h : s.x = .ok) :
    (AdjCost.finish s).2 ≠ .costX := by
  simp only [AdjCost.finish, h]
  repeat' split
  all_goals exact AdjCost.ParseStatus.noConfusion

/-- The text of a cost has no mark for several paths. -/
theorem parse_str_ne_costX (cost : AdjCost) : (AdjCost.parse cost.str).2 ≠ .costX := by
  rw [AdjCost.parse, AdjCost.scan_str]
  refine finish_ne_costX ?_
  split <;> rfl

theorem costWords_cases (cost : AdjCost) :
    costWords cost = [] ∨ costWords cost = [text ":", cost.str] := by
  unfold costWords
  split
  · exact .inl rfl
  · exact .inr rfl

theorem usersOf_append_cost {users : List Text} (h : ∀ u ∈ users, isColon u = false)
    (cost : AdjCost) : LoadGraph.usersOf (users ++ costWords cost) = users := by
  have htake : ∀ l : List Text, l.takeWhile (!isColon ·) = [] →
      (users ++ l).takeWhile (!isColon ·) = users := by
    intro l hl
    rw [List.takeWhile_append_of_pos fun u hu => by rw [h u hu]; rfl, hl, List.append_nil]
  rw [LoadGraph.usersOf]
  apply htake
  rcases costWords_cases cost with hcost | hcost <;> rw [hcost] <;> rfl

theorem costOf_append_cost {users : List Text} (h : ∀ u ∈ users, isColon u = false)
    (cost : AdjCost) :
    LoadGraph.costOf (users ++ costWords cost) =
      if costWords cost = [] then none else some (AdjCost.parse cost.str) := by
  have hdrop : (users ++ costWords cost).dropWhile (!isColon ·) =
      (costWords cost).dropWhile (!isColon ·) :=
    List.dropWhile_append_of_pos fun u hu => by rw [h u hu]; rfl
  rw [LoadGraph.costOf, hdrop]
  rcases costWords_cases cost with hcost | hcost <;> rw [hcost] <;> rfl

/-- The first word of a line. -/
def Line.key (l : Line) : Text := l.type ++ text "_" ++ l.tport

theorem Line.Fits.isWord_key {l : Line} (h : l.Fits) : IsWord l.key ∧ l.key.head? ≠ some 0x23 := by
  have hblank : ∀ c ∈ l.tport, isBlank c = false := h.tport.noBlank
  have hkey : ∀ type : Text, (∀ c ∈ type ++ text "_", isBlank c = false) →
      IsWord (type ++ text "_" ++ l.tport) := by
    intro type htype
    refine ⟨List.append_ne_nil_of_right_ne_nil _ h.tport.ne_nil, fun c hc => ?_⟩
    rcases List.mem_append.1 hc with hc | hc
    · exact htype c hc
    · exact hblank c hc
  rw [Line.key]
  rcases h.type with htype | htype | htype <;> rw [htype]
  · exact ⟨hkey _ (by decide +kernel), fun h => absurd (Option.some.inj h) (by decide)⟩
  · exact ⟨hkey _ (by decide +kernel), fun h => absurd (Option.some.inj h) (by decide)⟩
  · exact ⟨hkey _ (by decide +kernel), fun h => absurd (Option.some.inj h) (by decide)⟩

theorem Line.Fits.isWord_words {l : Line} (h : l.Fits) :
    ∀ w ∈ l.users ++ costWords l.cost, IsWord w := by
  intro w hw
  rcases List.mem_append.1 hw with hw | hw
  · exact (h.users w hw).1
  · exact isWord_costWords l.cost w hw

theorem Line.Fits.lineArgs_render {l : Line} (h : l.Fits) :
    LoadGraph.lineArgs l.render = some (true, l.key :: (l.users ++ costWords l.cost)) := by
  obtain ⟨hkey, hhash⟩ := h.isWord_key
  have hargs := lineArgs_joinWords hkey hhash h.isWord_words h.bytes
  rwa [List.take_of_length_le (by rw [List.length_cons]; exact h.words)] at hargs

theorem Line.Fits.newline_notMem {l : Line} (h : l.Fits) : newline ∉ l.render := by
  intro hnl
  rcases mem_joinWords hnl with hc | hc | ⟨w, hw, hc⟩
  · exact absurd (h.isWord_key.1.noBlank _ hc) (by decide)
  · exact absurd hc (by decide)
  · exact absurd ((h.isWord_words w hw).noBlank _ hc) (by decide)

theorem Line.Fits.begins {l : Line} (h : l.Fits) :
    ∃ w, LoadGraph.lineArgs l.render = some (true, w :: (l.users ++ costWords l.cost)) ∧
      LoadGraph.header w = some ⟨stmtOf l.type, l.type, l.tport⟩ :=
  ⟨l.key, h.lineArgs_render, header_of_type h.type h.tport.ne_nil⟩

theorem Line.Fits.oneLine {l : Line} (h : l.Fits) : ∀ line ∈ [l.render], newline ∉ line :=
  List.forall_mem_singleton.2 h.newline_notMem

theorem noMore_continues : ∀ line ∈ ([] : List Text), ∀ args,
    LoadGraph.lineArgs line ≠ some (true, args) :=
  List.forall_mem_nil _

/-- A printed line as a statement that is loaded. -/
def Line.statement (l : Line) (h : l.Fits) : LoadGraph.Statement where
  first := l.render
  more := []
  head := ⟨stmtOf l.type, l.type, l.tport⟩
  args := l.users ++ costWords l.cost
  begins := h.begins
  continues := noMore_continues
  oneLine := h.oneLine

/-- The connections that a line describes. -/
def Line.conns (l : Line) : List LoadGraph.Conn :=
  if 1 < l.users.length then
    LoadGraph.round (stmtOf l.type) l.users l.tport l.type (readCost l.cost)
  else []

theorem Line.conns_statement (l : Line) (h : l.Fits) : (l.statement h).conns = l.conns := by
  have hcolon : ∀ u ∈ l.users, isColon u = false := fun u hu => (h.users u hu).2
  have husers : (l.statement h).users = l.users := by
    show List.flatMap LoadGraph.usersOf [l.users ++ costWords l.cost] = _
    rw [List.flatMap_cons, List.flatMap_nil, List.append_nil, usersOf_append_cost hcolon]
  have hcosts : (l.statement h).costs.1 = readCost l.cost ∧
      (l.statement h).costs.2 ≠ .costX := by
    have hfold : (l.statement h).costs =
        (LoadGraph.costOf (l.users ++ costWords l.cost)).getD (.const COST_DEFAULT, .ok) := rfl
    rw [hfold, costOf_append_cost hcolon, readCost]
    split
    · exact ⟨rfl, AdjCost.ParseStatus.noConfusion⟩
    · exact ⟨rfl, parse_str_ne_costX l.cost⟩
  show LoadGraph.linkUsers (stmtOf l.type) (l.statement h).users l.tport l.type _ _ = _
  rw [husers, LoadGraph.linkUsers, if_neg hcosts.2, hcosts.1, Line.conns]

/-! ## The whole text -/

open LoadGraph (LoadState GraphOp Statement)

/-- What is added for the users that are waiting. -/
def pendingOps (s : LoadState) : List GraphOp :=
  if s.stmt.links then s.pending.map .addConn else []

/-- A statement that is not a cube connects the users of the one before, and has its own. -/
theorem statement_of_ne_cube {s : LoadState} {x : Statement} (hx : x.head.stmt ≠ .cube)
    (hs : s.stmt.links = true ∨ s.users = []) :
    (s.statement x).out = s.out ++ pendingOps s ∧ (s.statement x).pending = x.conns ∧
      (s.statement x).start = s.start ∧ (s.statement x).stmt.links = true := by
  have hbegin : s.begin x.head =
      { s with
        users := []
        out := s.out ++ pendingOps s
        stmt := x.head.stmt
        tport := x.head.tport
        type := x.head.type
        cost := .const COST_DEFAULT
        cstatus := .ok } := by
    rw [LoadState.begin, LoadState.flushes, if_neg hx, pendingOps]
    cases hlinks : s.stmt.links with
    | true => rfl
    | false =>
      have husers : s.users = [] := hs.resolve_left (by rw [hlinks]; exact Bool.false_ne_true)
      simp only [husers, List.append_nil, if_neg Bool.false_ne_true]
  have hstatement : s.statement x = (s.begin x.head).within x.users x.costs := rfl
  obtain ⟨w, -, hhead⟩ := x.begins
  rw [hstatement, hbegin]
  exact ⟨rfl, rfl, rfl, LoadGraph.header_links hhead⟩

theorem finish_foldl_statement {xs : List Statement} (hxs : ∀ x ∈ xs, x.head.stmt ≠ .cube)
    {s : LoadState} (hs : s.stmt.links = true ∨ s.users = []) :
    (xs.foldl LoadState.statement s).finish =
      s.out ++ pendingOps s ++ (xs.flatMap Statement.conns).map .addConn ++
        if s.start = [] then [] else [.addUser s.start] := by
  induction xs generalizing s with
  | nil =>
    rw [List.foldl_nil, LoadState.finish, List.flatMap_nil, List.map_nil, List.append_nil,
      pendingOps]
    split
    · rfl
    · rw [List.append_nil]
  | cons x xs ih =>
    obtain ⟨hout, hpending, hstart, hlinks⟩ :=
      statement_of_ne_cube (hxs x List.mem_cons_self) hs
    have hops : pendingOps (s.statement x) = x.conns.map .addConn := by
      rw [pendingOps, if_pos hlinks, hpending]
    rw [List.foldl_cons, ih (fun y hy => hxs y (List.mem_cons_of_mem x hy)) (.inl hlinks), hout,
      hops, hstart, List.flatMap_cons, List.map_append]
    simp only [List.append_assoc]

theorem stmtOf_ne_cube (type : Text) : stmtOf type ≠ .cube := by
  unfold stmtOf
  split
  · exact LoadGraph.Stmt.noConfusion
  · split <;> exact LoadGraph.Stmt.noConfusion

theorem newline_notMem_joinWords {first : Text} {words : List Text}
    (hfirst : ∀ c ∈ first, isBlank c = false) (hwords : ∀ w ∈ words, IsWord w) :
    newline ∉ joinWords first words := by
  intro hnl
  rcases mem_joinWords hnl with hc | hc | ⟨w, hw, hc⟩
  · exact absurd (hfirst _ hc) (by decide)
  · exact absurd hc (by decide)
  · exact absurd ((hwords w hw).noBlank _ hc) (by decide)

/-- The statements of lines that are read whole. -/
theorem exists_statements {lines : List Line} (hlines : ∀ l ∈ lines, l.Fits) :
    ∃ xs : List Statement, (∀ x ∈ xs, x.head.stmt ≠ .cube) ∧
      xs.flatMap Statement.lines = lines.map Line.render ∧
      xs.flatMap Statement.conns = lines.flatMap Line.conns := by
  induction lines with
  | nil => exact ⟨[], List.forall_mem_nil _, rfl, rfl⟩
  | cons l lines ih =>
    obtain ⟨xs, hcube, hrender, hconns⟩ := ih fun l' hl' => hlines l' (List.mem_cons_of_mem l hl')
    have hl := hlines l List.mem_cons_self
    refine ⟨l.statement hl :: xs, ?_, ?_, ?_⟩
    · intro x hx
      rcases List.mem_cons.1 hx with rfl | hx
      · exact stmtOf_ne_cube l.type
      · exact hcube x hx
    · rw [List.flatMap_cons, hrender, List.map_cons]
      rfl
    · rw [List.flatMap_cons, hconns, Line.conns_statement, List.flatMap_cons]

/-- The lines of a graph that is printed are read as its users, the connections that the
statements describe, and the user to start with, of whose name 79 bytes are kept. -/
theorem loadGraph_lines {start : Text} {names : List Text} {lines : List Line}
    (hstart : IsWord start)
    (hstartLen : (joinWords (text "start") [start]).length ≤ LoadGraph.maxLine)
    (hnames : ∀ w ∈ names, IsWord w)
    (hnodeLen : (joinWords (text "node") names).length ≤ LoadGraph.maxLine)
    (hlines : ∀ l ∈ lines, l.Fits) :
    LoadGraph.loadGraph ((joinWords (text "start") [start] :: joinWords (text "node") names ::
        lines.map Line.render).flatMap (· ++ [newline])) =
      (names.take 99).map .addUser ++ (lines.flatMap Line.conns).map .addConn ++
        [.addUser (start.take 79)] := by
  have hkey : ∀ s : String, text s ≠ [] → (∀ c ∈ text s, isBlank c = false) → IsWord (text s) :=
    fun s hne hblank => ⟨hne, hblank⟩
  have hwords : ∀ w ∈ [start], IsWord w := fun w hw => List.mem_singleton.1 hw ▸ hstart
  have hfirst := lineArgs_joinWords (hkey "start" (by decide) (by decide +kernel)) (by decide) hwords
    hstartLen
  have hnode := lineArgs_joinWords (hkey "node" (by decide) (by decide +kernel)) (by decide) hnames hnodeLen
  obtain ⟨xs, hcube, hrender, hconns⟩ := exists_statements hlines
  have hnl : ∀ line ∈ joinWords (text "start") [start] :: joinWords (text "node") names ::
      lines.map Line.render, newline ∉ line := by
    intro line hline
    rcases List.mem_cons.1 hline with rfl | hline
    · exact newline_notMem_joinWords (by decide +kernel) hwords
    · rcases List.mem_cons.1 hline with rfl | hline
      · exact newline_notMem_joinWords (by decide +kernel) hnames
      · rw [← hrender] at hline
        obtain ⟨x, -, hx⟩ := List.mem_flatMap.1 hline
        exact x.oneLine line hx
  have hempty : ∀ s : LoadState, [[]].foldl LoadState.loadLine s = s := fun _ => rfl
  rw [LoadGraph.loadGraph, LoadGraph.splitOnP_lines hnl, List.foldl_append, hempty, List.foldl_cons,
    List.foldl_cons, ← hrender, LoadState.foldl_flatMap_lines]
  -- the state after the first two lines
  have hstate : (LoadState.init.loadLine (joinWords (text "start") [start])).loadLine
      (joinWords (text "node") names) =
        { LoadState.init with
          stmt := .node
          start := start.take 79
          out := (names.take 99).map .addUser } := by
    have hone : LoadState.init.loadLine (joinWords (text "start") [start]) =
        { LoadState.init with stmt := .start, start := start.take 79 } := by
      rw [LoadState.loadLine, hfirst]
      rfl
    rw [hone, LoadState.loadLine, hnode]
    rfl
  rw [hstate]
  refine (finish_foldl_statement hcube (.inr rfl)).trans ?_
  have hne : start.take 79 ≠ [] := by
    rw [ne_eq, List.take_eq_nil_iff, not_or]
    exact ⟨by decide, hstart.ne_nil⟩
  rw [hconns, if_neg hne]
  show (names.take 99).map GraphOp.addUser ++ [] ++ _ ++ _ = _
  rw [List.append_nil]

end PrintGraph

end Raims
