import Raims.Graph.CostText
import Raims.Graph.LoadGraph

/-!
# Descriptions of graphs as statements

A description is a list of statements that connect users, each with the lines that continue
it. Loading two descriptions, one after the other, gives what they give each when the first
does not end in a `tcp_`, `link_` or `mesh_` statement with users that a `cube_` statement
of the second takes over.
-/

namespace Raims

namespace LoadGraph

/-! ## Names -/

theorem toNat_digit {ch : Char} (h : ch.isDigit = true) : (UInt8.ofNat ch.toNat).toNat = ch.toNat := by
  have hle : ch.toNat ≤ 57 := (Char.isDigit_iff_toNat.mp h).2
  rw [UInt8.toNat_ofNat']
  exact Nat.mod_eq_of_lt (by omega)

theorem isDigit_decimal {n : ℕ} {c : UInt8} (hc : c ∈ AdjCost.decimal n) :
    AdjCost.isDigit c = true := by
  obtain ⟨ch, hch, rfl⟩ := List.mem_map.1 hc
  have hdigit : ch.isDigit = true := Nat.isDigit_of_mem_toDigits (by decide) (by decide) hch
  obtain ⟨hlo, hhi⟩ := Char.isDigit_iff_toNat.mp hdigit
  rw [AdjCost.isDigit, decide_eq_true_eq, UInt8.le_iff_toNat_le, UInt8.le_iff_toNat_le,
    toNat_digit hdigit]
  exact ⟨hlo, hhi⟩

theorem decimal_inj {m n : ℕ} (h : AdjCost.decimal m = AdjCost.decimal n) : m = n := by
  have hback : ∀ k : ℕ,
      (AdjCost.decimal k).map (fun c => Char.ofNat c.toNat) = Nat.toDigits 10 k := by
    intro k
    rw [AdjCost.decimal, List.map_map]
    conv_rhs => rw [← List.map_id (Nat.toDigits 10 k)]
    refine List.map_congr_left fun ch hch => ?_
    have hdigit : ch.isDigit = true := Nat.isDigit_of_mem_toDigits (by decide) (by decide) hch
    rw [Function.comp_apply, toNat_digit hdigit, Char.ofNat_toNat, id]
  have hdigits : Nat.toDigits 10 m = Nat.toDigits 10 n := by rw [← hback, h, hback]
  rw [← Nat.ofDigitChars_ten_toDigits (n := m), hdigits, Nat.ofDigitChars_ten_toDigits]

/-- What stands before a number. -/
theorem append_decimal_inj {x y : Text} {c d : UInt8} {m n : ℕ} (hc : AdjCost.isDigit c = false)
    (hd : AdjCost.isDigit d = false)
    (h : x ++ [c] ++ AdjCost.decimal m = y ++ [d] ++ AdjCost.decimal n) :
    x = y ∧ c = d ∧ m = n := by
  have hdrop : ∀ (z : Text) (e : UInt8) (k : ℕ), AdjCost.isDigit e = false →
      (z ++ [e] ++ AdjCost.decimal k).rdropWhile AdjCost.isDigit = z ++ [e] := by
    intro z e k he
    have hall : ∀ l : Text, (∀ c ∈ l, AdjCost.isDigit c = true) →
        (z ++ [e] ++ l).rdropWhile AdjCost.isDigit = z ++ [e] := by
      intro l
      induction l using List.reverseRecOn with
      | nil =>
        intro _
        rw [List.append_nil]
        exact List.rdropWhile_concat_neg _ _ _ (by rw [he]; exact Bool.false_ne_true)
      | append_singleton l c ih =>
        intro hl
        rw [← List.append_assoc,
          List.rdropWhile_concat_pos _ _ _ (hl c (List.mem_append_right _ List.mem_cons_self))]
        exact ih fun c' hc' => hl c' (List.mem_append_left _ hc')
    exact hall _ fun c hc => isDigit_decimal hc
  have hfront := congrArg (List.rdropWhile AdjCost.isDigit) h
  rw [hdrop x c m hc, hdrop y d n hd] at hfront
  obtain ⟨hxy, hcd⟩ := List.append_inj' hfront rfl
  refine ⟨hxy, List.head_eq_of_cons_eq hcd, ?_⟩
  rw [hfront] at h
  exact decimal_inj (List.append_cancel_left h)

/-! ## The names of the connections of a statement -/

theorem exists_cubeStep {i count : ℕ} (hi : i < count) (hcount : 2 ≤ count) :
    ∃ j ∈ cubeSteps count, i ^^^ j < count := by
  have hmem : ∀ k, 2 ^ k < count → 2 ^ k ∈ cubeSteps count := by
    intro k hk
    rw [cubeSteps, List.mem_filter, decide_eq_true_eq]
    refine ⟨List.mem_map.2 ⟨k, List.mem_range.2 ?_, rfl⟩, hk⟩
    exact Nat.lt_two_pow_self.trans hk
  rcases Nat.eq_zero_or_pos i with rfl | hpos
  · exact ⟨2 ^ 0, hmem 0 hcount, by rw [Nat.zero_xor]; exact hcount⟩
  · -- the highest bit of `i` is taken away
    have hlog : 2 ^ i.log2 ≤ i := Nat.log2_self_le (Nat.ne_of_gt hpos)
    refine ⟨2 ^ i.log2, hmem _ (hlog.trans_lt hi), ?_⟩
    have hlt : i < 2 ^ (i.log2 + 1) := Nat.lt_log2_self
    have hdiv : i / 2 ^ i.log2 = 1 := by
      rw [Nat.div_eq_iff (Nat.two_pow_pos _)]
      rw [Nat.pow_succ] at hlt
      omega
    have hzero : (i ^^^ 2 ^ i.log2) / 2 ^ i.log2 = 0 := by
      rw [Nat.xor_div_two_pow, hdiv, Nat.div_self (Nat.two_pow_pos _), Nat.xor_self]
    have hsmall : i ^^^ 2 ^ i.log2 < 2 ^ i.log2 := by
      rcases Nat.div_eq_zero_iff.1 hzero with h | h
      · exact absurd h (Nat.ne_of_gt (Nat.two_pow_pos _))
      · exact h
    omega

section Names

variable {users : List Text} {tport type : Text} {cost : AdjCost} {cstatus : AdjCost.ParseStatus}
  {c : Conn}

theorem linkUsers_of_short (stmt : Stmt) (h : users.length ≤ 1) :
    linkUsers stmt users tport type cost cstatus = [] := by
  rw [linkUsers, if_neg (Nat.not_lt.2 h)]

theorem tport_round {stmt : Stmt} (hstmt : stmt ≠ .cube) (hc : c ∈ round stmt users tport type cost) :
    c.tport = tport := by
  have hmesh : ∀ c ∈ (List.range users.length).flatMap fun i =>
      (users.drop (i + 1)).map fun b => (⟨users.getD i [], b, tport, type, cost⟩ : Conn),
      c.tport = tport := by
    intro c hc
    obtain ⟨i, -, hc⟩ := List.mem_flatMap.1 hc
    obtain ⟨b, -, rfl⟩ := List.mem_map.1 hc
    rfl
  cases stmt with
  | cube => exact absurd rfl hstmt
  | link =>
    obtain ⟨b, -, rfl⟩ := List.mem_map.1 hc
    rfl
  | none => exact hmesh c hc
  | start => exact hmesh c hc
  | node => exact hmesh c hc
  | mesh => exact hmesh c hc
  | pgm => exact hmesh c hc

theorem tport_round_cube (hc : c ∈ round .cube users tport type cost) :
    ∃ i < users.length, c.tport = tport ++ text "_v" ++ AdjCost.decimal (i + 1) := by
  obtain ⟨i, hi, hc⟩ := List.mem_flatMap.1 hc
  obtain ⟨j, -, hj⟩ := List.mem_filterMap.1 hc
  obtain ⟨b, -, rfl⟩ := Option.map_eq_some_iff.1 hj
  exact ⟨i, List.mem_range.1 hi, rfl⟩

/-- Each user of a cube has a neighbour. -/
theorem exists_round_cube {i : ℕ} (hi : i < users.length) (hlen : 2 ≤ users.length) :
    ∃ c ∈ round .cube users tport type cost,
      c.tport = tport ++ text "_v" ++ AdjCost.decimal (i + 1) := by
  obtain ⟨j, hj, hlt⟩ := exists_cubeStep hi hlen
  refine ⟨⟨users.getD i [], users[i ^^^ j], _, type, cost⟩, ?_, rfl⟩
  refine List.mem_flatMap.2 ⟨i, List.mem_range.2 hi, List.mem_filterMap.2 ⟨j, hj, ?_⟩⟩
  rw [List.getElem?_eq_getElem hlt, Option.map_some]

theorem tport_linkUsers {stmt : Stmt} (hstmt : stmt ≠ .cube)
    (hc : c ∈ linkUsers stmt users tport type cost cstatus) :
    c.tport = tport ∧ cstatus ≠ .costX ∨
      ∃ k, c.tport = tport ++ text "_" ++ AdjCost.decimal k := by
  unfold linkUsers at hc
  split at hc
  · split at hc
    · obtain ⟨cost', -, hc⟩ := List.mem_flatMap.1 hc
      exact .inr ⟨_, tport_round hstmt hc⟩
    · exact .inl ⟨tport_round hstmt hc, ‹_›⟩
  · exact absurd hc List.not_mem_nil

theorem tport_linkUsers_cube (hc : c ∈ linkUsers .cube users tport type cost cstatus) :
    ∃ base, ∃ i < users.length, c.tport = base ++ text "_v" ++ AdjCost.decimal (i + 1) := by
  unfold linkUsers at hc
  split at hc
  · split at hc
    · obtain ⟨cost', -, hc⟩ := List.mem_flatMap.1 hc
      exact ⟨_, tport_round_cube hc⟩
    · exact ⟨_, tport_round_cube hc⟩
  · exact absurd hc List.not_mem_nil

theorem exists_linkUsers_cube (tport type : Text) (cost : AdjCost) (cstatus : AdjCost.ParseStatus)
    (hlen : 2 ≤ users.length) :
    ∃ base, ∀ i < users.length, ∃ c ∈ linkUsers .cube users tport type cost cstatus,
      c.tport = base ++ text "_v" ++ AdjCost.decimal (i + 1) := by
  have hmany : 1 < users.length := hlen
  rw [linkUsers, if_pos hmany]
  by_cases hx : cstatus = .costX
  · rw [if_pos hx]
    refine ⟨tport ++ text "_" ++ AdjCost.decimal (cost.path.num.toNat + 1), fun i hi => ?_⟩
    obtain ⟨c, hc, hname⟩ := @exists_round_cube users
      (tport ++ text "_" ++ AdjCost.decimal (cost.path.num.toNat + 1)) type cost i hi hlen
    exact ⟨c, List.mem_flatMap.2 ⟨cost, List.mem_cons_self, hc⟩, hname⟩
  · rw [if_neg hx]
    exact ⟨tport, fun i hi => exists_round_cube hi hlen⟩

/-- The number of a name in a cube. -/
theorem name_inj {base base' : Text} {m n : ℕ}
    (h : base ++ text "_v" ++ AdjCost.decimal m = base' ++ text "_v" ++ AdjCost.decimal n) :
    m = n := by
  have hsplit : ∀ x : Text, x ++ text "_v" = (x ++ [0x5f]) ++ [0x76] := fun x =>
    (List.append_assoc x [0x5f] [0x76]).symm
  rw [hsplit, hsplit] at h
  exact (append_decimal_inj (by decide) (by decide) h).2.2

theorem name_ne {base base' : Text} {m n : ℕ} :
    base ++ text "_v" ++ AdjCost.decimal m ≠ base' ++ text "_" ++ AdjCost.decimal n := by
  intro h
  have hsplit : base ++ text "_v" = (base ++ [0x5f]) ++ [0x76] :=
    (List.append_assoc base [0x5f] [0x76]).symm
  rw [hsplit] at h
  exact absurd (append_decimal_inj (by decide) (by decide) h).2.1 (by decide)

/-- A cube that takes over the users of another statement is not the two statements: the
names of its last users are of neither. -/
theorem cube_merge_ne {stmt : Stmt} (hstmt : stmt ≠ .cube) {users' : List Text}
    {tport' type' : Text} {cost' : AdjCost} {cstatus' : AdjCost.ParseStatus}
    (hpos : 1 ≤ users.length) (hlen : 2 ≤ users.length + users'.length) :
    linkUsers .cube (users ++ users') tport' type' cost' cstatus' ≠
      linkUsers stmt users tport type cost cstatus ++
        linkUsers .cube users' tport' type' cost' cstatus' := by
  intro heq
  rw [← List.length_append] at hlen
  obtain ⟨base, hall⟩ := exists_linkUsers_cube tport' type' cost' cstatus' hlen
  have hlast : ∀ i < (users ++ users').length, users'.length ≤ i →
      ∃ c ∈ linkUsers stmt users tport type cost cstatus,
        c.tport = base ++ text "_v" ++ AdjCost.decimal (i + 1) := by
    intro i hi hge
    obtain ⟨c, hc, hname⟩ := hall i hi
    rw [heq, List.mem_append] at hc
    rcases hc with hc | hc
    · exact ⟨c, hc, hname⟩
    · obtain ⟨base', i', hi', hname'⟩ := tport_linkUsers_cube hc
      have := name_inj (hname.symm.trans hname')
      omega
  have hname : ∀ i < (users ++ users').length, users'.length ≤ i →
      tport = base ++ text "_v" ++ AdjCost.decimal (i + 1) := by
    intro i hi hge
    obtain ⟨c, hc, hv⟩ := hlast i hi hge
    rcases tport_linkUsers hstmt hc with ⟨htport, -⟩ | ⟨k, hk⟩
    · exact htport.symm.trans hv
    · exact absurd (hv.symm.trans hk) name_ne
  rw [List.length_append] at hlen hlast hname
  rcases Nat.eq_or_lt_of_le hpos with hone | hmany
  · obtain ⟨c, hc, -⟩ := hlast users'.length (by omega) (Nat.le_refl _)
    rw [linkUsers_of_short stmt (Nat.le_of_eq hone.symm)] at hc
    exact absurd hc List.not_mem_nil
  · have hfst := hname users'.length (by omega) (Nat.le_refl _)
    have hsnd := hname (users'.length + 1) (by omega) (Nat.le_succ _)
    have := name_inj (hfst.symm.trans hsnd)
    omega

end Names

/-! ## Statements -/

/-- The words of a line that is not skipped. -/
def moreArgs (line : Text) : Option (List Text) := (lineArgs line).map Prod.snd

/-- A line that begins a statement, and the lines that continue it or are skipped. -/
structure Statement where
  first : Text
  more : List Text
  head : Header
  args : List Text
  begins : ∃ w, lineArgs first = some (true, w :: args) ∧ header w = some head
  continues : ∀ line ∈ more, ∀ args, lineArgs line ≠ some (true, args)
  oneLine : ∀ line ∈ first :: more, newline ∉ line

namespace Statement

variable (x : Statement)

def lines : List Text := x.first :: x.more

/-- The words of the lines of a statement, without the word that it begins with. -/
def argLines : List (List Text) := x.args :: x.more.filterMap moreArgs

def users : List Text := x.argLines.flatMap usersOf

/-- The cost is the last one, and the default when there is none. -/
def costs : AdjCost × AdjCost.ParseStatus :=
  x.argLines.foldl (fun c args => (costOf args).getD c) (.const COST_DEFAULT, .ok)

/-- The connections that the statement describes. -/
def conns : List Conn :=
  linkUsers x.head.stmt x.users x.head.tport x.head.type x.costs.1 x.costs.2

end Statement

/-- The text of a description. -/
def textOf (d : List Statement) : Text := (d.flatMap Statement.lines).flatMap (· ++ [newline])

/-- A statement that connects users and is not a cube is the last one of the first
description, and a cube is the first one of the second, which takes over users of it and has
two or more with them. -/
def Merges (d₁ d₂ : List Statement) : Prop :=
  ∃ x ∈ d₁.getLast?, ∃ y ∈ d₂.head?,
    (x.head.stmt = .link ∨ x.head.stmt = .mesh) ∧ y.head.stmt = .cube ∧
      1 ≤ x.users.length ∧ 2 ≤ x.users.length + y.users.length

/-- A cube takes over the users of the statement before it. -/
def TakesOver (x y : Statement) : Prop :=
  y.head.stmt = .cube ∧ (x.head.stmt = .link ∨ x.head.stmt = .mesh)

instance (x y : Statement) : Decidable (TakesOver x y) := inferInstanceAs (Decidable (_ ∧ _))

/-- The names that are built for a statement with other users before its own. -/
def Statement.names (x : Statement) (before : List Text) : List Text :=
  linkNames x.head.stmt (before ++ x.users) x.head.tport x.costs.1 x.costs.2

/-- The names that are built for a description. -/
def namesIn (before : List Text) : List Statement → List Text
  | [] => []
  | [x] => x.names before
  | x :: y :: d =>
    if TakesOver x y then namesIn (before ++ x.users) (y :: d)
    else x.names before ++ namesIn [] (y :: d)

theorem namesIn_cons_cons (before : List Text) (x y : Statement) (d : List Statement) :
    namesIn before (x :: y :: d) = if TakesOver x y then namesIn (before ++ x.users) (y :: d)
      else x.names before ++ namesIn [] (y :: d) := rfl

def NamesFit (d : List Statement) : Prop := ∀ name ∈ namesIn [] d, name.length < nameSize

/-! ## The lines of a statement -/

theorem splitOnP_lines {ls : List Text} (h : ∀ l ∈ ls, newline ∉ l) :
    (ls.flatMap (· ++ [newline])).splitOnP (· == newline) = ls ++ [[]] := by
  induction ls with
  | nil => rfl
  | cons l ls ih =>
    have hl : ∀ c ∈ l, (c == newline) = false := by
      intro c hc
      rw [beq_eq_false_iff_ne]
      rintro rfl
      exact h l List.mem_cons_self hc
    rw [List.flatMap_cons, List.append_assoc, List.singleton_append,
      List.splitOnP_append_cons_of_forall_mem hl newline (beq_self_eq_true newline),
      ih fun l' hl' => h l' (List.mem_cons_of_mem l hl'), List.cons_append]

/-- The lines of a description are those of its statements. -/
theorem loadGraph_textOf (d : List Statement) :
    loadGraph (textOf d) = ((d.flatMap Statement.lines).foldl LoadState.loadLine .init).finish := by
  have hlines : ∀ l ∈ d.flatMap Statement.lines, newline ∉ l := by
    intro l hl
    obtain ⟨x, -, hl⟩ := List.mem_flatMap.1 hl
    exact x.oneLine l hl
  rw [loadGraph, textOf, splitOnP_lines hlines, List.foldl_append]
  rfl

theorem header_links {w : Text} {h : Header} (hw : header w = some h) : h.stmt.links = true := by
  unfold header at hw
  repeat' split at hw
  all_goals first
    | exact absurd hw (Option.some_ne_none h).symm
    | (obtain rfl := Option.some.inj hw; rfl)

theorem header_word {w : Text} {h : Header} (hw : header w = some h) (s : LoadState)
    (args : List Text) : s.word w args = (s.begin h).addArgs args := by
  have hstart : w ≠ text "start" := by
    rintro rfl
    have hnone : header (text "start") = none := by decide
    exact absurd (hnone.symm.trans hw) (Option.some_ne_none h).symm
  have hnode : w ≠ text "node" := by
    rintro rfl
    have hnone : header (text "node") = none := by decide
    exact absurd (hnone.symm.trans hw) (Option.some_ne_none h).symm
  rw [LoadState.word, if_neg hstart, if_neg hnode, hw]

namespace LoadState

variable {s : LoadState}

/-- The state after a statement that began in `s` has had its lines. -/
def within (s : LoadState) (users : List Text) (costs : AdjCost × AdjCost.ParseStatus) :
    LoadState :=
  { s with users := s.users ++ users, cost := costs.1, cstatus := costs.2 }

theorem addArgs_eq (hs : s.stmt.links = true) (args : List Text) :
    s.addArgs args = s.within (usersOf args) ((costOf args).getD (s.cost, s.cstatus)) := by
  unfold addArgs
  cases costOf args with
  | none =>
    rw [Option.elim_none, if_pos hs]
    rfl
  | some c =>
    rw [Option.elim_some, if_pos hs]
    rfl

theorem foldl_addArgs (hs : s.stmt.links = true) (l : List (List Text)) :
    l.foldl addArgs s = s.within (l.flatMap usersOf)
      (l.foldl (fun c args => (costOf args).getD c) (s.cost, s.cstatus)) := by
  induction l generalizing s with
  | nil =>
    rw [List.foldl_nil, List.flatMap_nil, within, List.append_nil]
    rfl
  | cons args l ih =>
    have hs' : (s.within (usersOf args) ((costOf args).getD (s.cost, s.cstatus))).stmt.links = true :=
      hs
    rw [List.foldl_cons, addArgs_eq hs, ih hs', List.flatMap_cons, List.foldl_cons]
    simp only [within, List.append_assoc]

/-- A line that continues a statement. -/
theorem loadLine_of_continues (hs : s.stmt.links = true) {line : Text}
    (h : ∀ args, lineArgs line ≠ some (true, args)) :
    s.loadLine line = (moreArgs line).elim s s.addArgs := by
  have hnode : s.stmt ≠ .node := by
    intro hnode
    rw [hnode] at hs
    exact Bool.noConfusion hs
  rw [loadLine, moreArgs]
  cases hargs : lineArgs line with
  | none => rfl
  | some r =>
    obtain ⟨first, args⟩ := r
    cases first with
    | true => exact absurd hargs (h args)
    | false =>
      cases args with
      | nil =>
        show s = s.addArgs []
        rw [addArgs_eq hs, within, usersOf, List.takeWhile_nil, List.append_nil]
        rfl
      | cons w args =>
        show (if s.stmt = .node then _ else _) = _
        rw [if_neg hnode]
        rfl

theorem foldl_continues (hs : s.stmt.links = true) {more : List Text}
    (h : ∀ line ∈ more, ∀ args, lineArgs line ≠ some (true, args)) :
    more.foldl loadLine s = (more.filterMap moreArgs).foldl addArgs s := by
  induction more generalizing s with
  | nil => rfl
  | cons line more ih =>
    have hrest := fun line' hline' => h line' (List.mem_cons_of_mem line hline')
    rw [List.foldl_cons, loadLine_of_continues hs (h line List.mem_cons_self)]
    cases hargs : moreArgs line with
    | none =>
      rw [List.filterMap_cons_none hargs, Option.elim_none]
      exact ih hs hrest
    | some args =>
      rw [List.filterMap_cons_some hargs, Option.elim_some, List.foldl_cons]
      refine ih ?_ hrest
      rw [addArgs_eq hs]
      exact hs

/-- All lines of a statement. -/
def statement (s : LoadState) (x : Statement) : LoadState := (s.begin x.head).within x.users x.costs

theorem foldl_lines (s : LoadState) (x : Statement) : x.lines.foldl loadLine s = s.statement x := by
  obtain ⟨w, hfirst, hhead⟩ := x.begins
  have hlinks : (s.begin x.head).stmt.links = true := header_links hhead
  have hline : s.loadLine x.first = (s.begin x.head).addArgs x.args := by
    rw [loadLine, hfirst]
    exact header_word hhead s x.args
  have hlinks' : ((s.begin x.head).addArgs x.args).stmt.links = true := by
    rw [addArgs_eq hlinks]
    exact hlinks
  rw [Statement.lines, List.foldl_cons, hline, foldl_continues hlinks' x.continues,
    ← List.foldl_cons (f := addArgs)]
  exact foldl_addArgs hlinks x.argLines

theorem foldl_flatMap_lines (s : LoadState) (d : List Statement) :
    (d.flatMap Statement.lines).foldl loadLine s = d.foldl statement s := by
  induction d generalizing s with
  | nil => rfl
  | cons x d ih => rw [List.flatMap_cons, List.foldl_append, foldl_lines, ih, List.foldl_cons]

/-! ## Names -/

/-- A line that continues a statement builds no name. -/
theorem namesFrom_continues (hs : s.stmt.links = true) {more : List Text}
    (h : ∀ line ∈ more, ∀ args, lineArgs line ≠ some (true, args)) (lines : List Text) :
    s.namesFrom (more ++ lines) = (more.foldl loadLine s).namesFrom lines := by
  induction more generalizing s with
  | nil => rfl
  | cons line more ih =>
    have hline := h line List.mem_cons_self
    have hbefore : s.namesBefore line = [] := by
      unfold namesBefore
      cases hargs : lineArgs line with
      | none => rfl
      | some r =>
        obtain ⟨first, args⟩ := r
        cases first with
        | true => exact absurd hargs (hline args)
        | false => rfl
    have hs' : (s.loadLine line).stmt.links = true := by
      rw [loadLine_of_continues hs hline]
      cases moreArgs line with
      | none => exact hs
      | some args =>
        rw [Option.elim_some, addArgs_eq hs]
        exact hs
    rw [List.cons_append, namesFrom, hbefore, List.nil_append, List.foldl_cons]
    exact ih hs' fun line' hline' => h line' (List.mem_cons_of_mem line hline')

/-- The names of the statement before are built when the next one begins. -/
theorem namesFrom_lines (s : LoadState) (x : Statement) (lines : List Text) :
    s.namesFrom (x.lines ++ lines) =
      (if s.flushes x.head then s.pendingNames else []) ++ (s.statement x).namesFrom lines := by
  obtain ⟨w, hfirst, hhead⟩ := x.begins
  have hlinks : (s.loadLine x.first).stmt.links = true := by
    have hbegin : (s.begin x.head).stmt.links = true := header_links hhead
    rw [loadLine, hfirst]
    show (s.word w x.args).stmt.links = true
    rw [header_word hhead, addArgs_eq hbegin]
    exact hbegin
  have hbefore : s.namesBefore x.first = if s.flushes x.head then s.pendingNames else [] := by
    rw [namesBefore, hfirst]
    show (header w).elim _ _ = _
    rw [hhead, Option.elim_some]
  rw [← foldl_lines, Statement.lines, List.cons_append, namesFrom, hbefore,
    namesFrom_continues hlinks x.continues, List.foldl_cons]

/-! ## One description after another -/

/-- The connections added already. -/
def conns (s : LoadState) : List Conn := s.out.filterMap GraphOp.conn?

/-- The connections at the end of a description that is loaded from a state. -/
def connsFrom (s : LoadState) (d : List Statement) : List Conn :=
  (d.foldl statement s).finish.filterMap GraphOp.conn?

theorem connsOf_textOf (d : List Statement) : connsOf (textOf d) = connsFrom .init d := by
  rw [connsOf, loadGraph_textOf, foldl_flatMap_lines, connsFrom]

theorem filterMap_addConn (l : List Conn) :
    (l.map GraphOp.addConn).filterMap GraphOp.conn? = l := by
  rw [List.filterMap_map]
  exact List.filterMap_some

/-- The same state with other calls before its own. -/
def after (s : LoadState) (out : List GraphOp) : LoadState := { s with out := out ++ s.out }

theorem statement_after (s : LoadState) (out : List GraphOp) (x : Statement) :
    (s.after out).statement x = (s.statement x).after out := by
  have hbegin : (s.after out).begin x.head = (s.begin x.head).after out := by
    have hflush : (s.after out).flush = s.flush.after out := by
      rw [flush, flush, after, after]
      exact congrArg (fun l => { s with users := [], out := l }) (List.append_assoc ..)
    have hsame : (s.after out).flushes x.head = s.flushes x.head := rfl
    rw [begin, begin, hflush, hsame]
    cases s.flushes x.head <;> rfl
  rw [statement, statement, hbegin]
  rfl

theorem connsFrom_after (s : LoadState) (out : List GraphOp) (d : List Statement) :
    connsFrom (s.after out) d = out.filterMap GraphOp.conn? ++ connsFrom s d := by
  have hfold : ∀ s : LoadState,
      d.foldl statement (s.after out) = (d.foldl statement s).after out := by
    induction d with
    | nil => intro s; rfl
    | cons x d ih =>
      intro s
      rw [List.foldl_cons, statement_after, ih, List.foldl_cons]
  have hfinish : ∀ s : LoadState, (s.after out).finish = out ++ s.finish := by
    intro s
    have hflush : (s.after out).flush.out = out ++ s.flush.out := List.append_assoc ..
    rw [finish, finish]
    show (if s.stmt.links = true then (s.after out).flush else s.after out).out ++ _ = _
    cases hlinks : s.stmt.links with
    | true => rw [if_pos rfl, if_pos rfl, hflush, List.append_assoc]; rfl
    | false => exact List.append_assoc ..
  rw [connsFrom, hfold, hfinish, List.filterMap_append, connsFrom]

/-- A statement that connects users is in work, and no user to start with is named. -/
structure Linking (s : LoadState) : Prop where
  links : s.stmt.links = true
  start : s.start = []

theorem Linking.connsFrom_nil {s : LoadState} (hs : Linking s) :
    connsFrom s [] = s.conns ++ s.pending := by
  have hfinish : s.finish = s.out ++ s.pending.map .addConn := by
    rw [finish, if_pos hs.links, if_pos hs.start, List.append_nil]
    rfl
  rw [connsFrom, List.foldl_nil, hfinish, List.filterMap_append, filterMap_addConn, conns]

theorem begin_head_links (s : LoadState) (x : Statement) : (s.begin x.head).stmt.links = true := by
  obtain ⟨w, -, hhead⟩ := x.begins
  exact header_links hhead

theorem start_begin (s : LoadState) (h : Header) : (s.begin h).start = s.start := by
  rw [begin]
  cases s.flushes h <;> rfl

theorem linking_statement {s : LoadState} (hs : s.start = []) (x : Statement) :
    Linking (s.statement x) where
  links := begin_head_links s x
  start := (start_begin s x.head).trans hs

/-- When the users are connected first, or there are none, the statement begins as if it
were the first one. -/
theorem statement_eq_after {s : LoadState} (hs : Linking s) {x : Statement}
    (h : s.flushes x.head = true ∨ s.users = []) :
    s.statement x = (init.statement x).after (s.out ++ s.pending.map .addConn) := by
  have hinit : init.begin x.head =
      { init with stmt := x.head.stmt, tport := x.head.tport, type := x.head.type } := by
    have hnot : init.flushes x.head = false := by
      rw [flushes]
      split <;> rfl
    rw [begin, hnot]
    rfl
  have hbegin : s.begin x.head = (init.begin x.head).after (s.out ++ s.pending.map .addConn) := by
    rw [hinit, begin]
    cases hflushes : s.flushes x.head with
    | true =>
      rw [if_pos rfl]
      simp only [flush, after, init, hs.start, List.append_nil]
    | false =>
      have hnil : s.users = [] := by
        rcases h with h | h
        · exact Bool.noConfusion (hflushes.symm.trans h)
        · exact h
      have hpending : s.pending = [] := by
        rw [pending, hnil]
        exact linkUsers_of_short _ (Nat.zero_le 1)
      rw [if_neg Bool.false_ne_true]
      simp only [after, init, hs.start, hnil, hpending, List.map_nil, List.append_nil]
  rw [statement, statement, hbegin]
  rfl

theorem connsFrom_cons_of_flush {s : LoadState} (hs : Linking s) {x : Statement}
    (h : s.flushes x.head = true ∨ s.users = []) (d : List Statement) :
    connsFrom s (x :: d) = s.conns ++ s.pending ++ connsFrom init (x :: d) := by
  have hcons : ∀ s : LoadState, connsFrom s (x :: d) = connsFrom (s.statement x) d := fun _ => rfl
  rw [hcons, hcons, statement_eq_after hs h, connsFrom_after, List.filterMap_append,
    filterMap_addConn, conns]

theorem connsFrom_init_nil : connsFrom init [] = [] := rfl

/-- After a cube all users are connected before anything else. -/
theorem connsFrom_of_cube {s : LoadState} (hs : Linking s) (hcube : s.stmt = .cube)
    (d : List Statement) : connsFrom s d = s.conns ++ s.pending ++ connsFrom init d := by
  cases d with
  | nil => rw [hs.connsFrom_nil, connsFrom_init_nil, List.append_nil]
  | cons x d =>
    refine connsFrom_cons_of_flush hs (.inl ?_) d
    rw [flushes, hcube]
    split <;> rfl

theorem not_flushes_iff {s : LoadState} (hs : Linking s) (h : Header) :
    s.flushes h = false ↔ h.stmt = .cube ∧ (s.stmt = .link ∨ s.stmt = .mesh) := by
  have hlinks := hs.links
  rw [flushes]
  by_cases hcube : h.stmt = .cube
  · rw [if_pos hcube, and_iff_right hcube]
    cases hstmt : s.stmt <;> rw [hstmt] at hlinks <;> first
      | exact Bool.noConfusion hlinks
      | decide
  · rw [if_neg hcube, hlinks]
    exact iff_of_false Bool.noConfusion fun h => hcube h.1

theorem flushes_init (h : Header) : init.flushes h = false := by
  rw [flushes]
  split <;> rfl

/-- What is in work when the users of the statement before were not connected. -/
theorem statement_of_not_flushes {s : LoadState} {x : Statement}
    (h : s.flushes x.head = false) :
    (s.statement x).stmt = x.head.stmt ∧ (s.statement x).conns = s.conns ∧
      (s.statement x).pending = linkUsers x.head.stmt (s.users ++ x.users) x.head.tport
        x.head.type x.costs.1 x.costs.2 := by
  rw [statement, begin, h]
  exact ⟨rfl, rfl, rfl⟩

/-- A statement that does not connect the users of the one before takes them over. -/
theorem connsFrom_cons_iff {s : LoadState} (hs : Linking s) (x : Statement) (d : List Statement) :
    connsFrom s (x :: d) = s.conns ++ s.pending ++ connsFrom init (x :: d) ↔
      ¬ (s.flushes x.head = false ∧ 1 ≤ s.users.length ∧
        2 ≤ s.users.length + x.users.length) := by
  by_cases hflush : s.flushes x.head = true ∨ s.users = []
  · refine iff_of_true (connsFrom_cons_of_flush hs hflush d) ?_
    rintro ⟨hnot, hpos, -⟩
    rcases hflush with h | h
    · exact Bool.noConfusion (hnot.symm.trans h)
    · rw [h] at hpos
      exact absurd hpos (by decide)
  · rw [not_or, Bool.not_eq_true] at hflush
    obtain ⟨hnot, husers⟩ := hflush
    obtain ⟨hcube, hstmt⟩ := (not_flushes_iff hs x.head).1 hnot
    have hpos : 1 ≤ s.users.length := List.length_pos_of_ne_nil husers
    have hne : s.stmt ≠ .cube := by
      intro h
      rw [h] at hstmt
      exact absurd hstmt (by decide)
    have hstep : ∀ s : LoadState, s.start = [] → s.flushes x.head = false →
        connsFrom s (x :: d) = s.conns ++ linkUsers .cube (s.users ++ x.users) x.head.tport
          x.head.type x.costs.1 x.costs.2 ++ connsFrom init d := by
      intro s hstart hnot
      obtain ⟨hstmt, hconns, hpending⟩ := statement_of_not_flushes hnot
      have hafter := connsFrom_of_cube (linking_statement hstart x) (hstmt.trans hcube) d
      rwa [hconns, hpending, hcube] at hafter
    have hinit : connsFrom init (x :: d) = linkUsers .cube x.users x.head.tport x.head.type
        x.costs.1 x.costs.2 ++ connsFrom init d :=
      hstep init rfl (flushes_init x.head)
    rw [hstep s hs.start hnot, hinit, List.append_assoc, List.append_assoc, List.append_right_inj,
      ← List.append_assoc, List.append_left_inj]
    by_cases hmany : 2 ≤ s.users.length + x.users.length
    · exact iff_of_false (cube_merge_ne hne hpos hmany) fun h => h ⟨hnot, hpos, hmany⟩
    · refine iff_of_true ?_ fun h => hmany h.2.2
      have hmerged : (s.users ++ x.users).length ≤ 1 := by
        rw [List.length_append]
        omega
      rw [linkUsers_of_short _ hmerged, pending, linkUsers_of_short _ (by omega),
        linkUsers_of_short _ (by omega), List.append_nil]

/-- The state after the last statement of a description. -/
theorem foldl_statement_concat (d : List Statement) (x : Statement) :
    Linking ((d ++ [x]).foldl statement init) ∧
      ((d ++ [x]).foldl statement init).stmt = x.head.stmt ∧
      (x.head.stmt ≠ .cube → ((d ++ [x]).foldl statement init).users = x.users) := by
  have hstart : ∀ d : List Statement, (d.foldl statement init).start = [] ∧
      ((d.foldl statement init).users = [] ∨ (d.foldl statement init).stmt.links = true) := by
    intro d
    induction d using List.reverseRecOn with
    | nil => exact ⟨rfl, .inl rfl⟩
    | append_singleton d x ih =>
      rw [List.foldl_append]
      have hlinking := linking_statement ih.1 x
      exact ⟨hlinking.start, .inr hlinking.links⟩
  obtain ⟨hs, hidle⟩ := hstart d
  rw [List.foldl_append, List.foldl_cons, List.foldl_nil]
  refine ⟨linking_statement hs x, ?_, fun hcube => ?_⟩
  · rw [statement, begin]
    rfl
  · have hbegin : ((d.foldl statement init).begin x.head).users = [] := by
      rw [begin, flushes, if_neg hcube]
      cases hlinks : (d.foldl statement init).stmt.links with
      | true => rfl
      | false =>
        rcases hidle with h | h
        · exact h
        · exact Bool.noConfusion (hlinks.symm.trans h)
    rw [statement, within, hbegin]
    rfl

end LoadState

namespace LoadState

/-- The names of a description from its first statement on. -/
theorem namesFrom_statements {s : LoadState} (hs : s.start = []) (x : Statement)
    (d : List Statement) :
    (s.statement x).namesFrom (d.flatMap Statement.lines ++ [[]]) =
      namesIn (s.begin x.head).users (x :: d) := by
  induction d generalizing s x with
  | nil =>
    have hlinks : ((s.statement x).loadLine []).stmt.links = true := begin_head_links s x
    show [] ++ (if ((s.statement x).loadLine []).stmt.links then _ else _) = _
    rw [List.nil_append, if_pos hlinks]
    rfl
  | cons y d ih =>
    have hlinking := linking_statement hs x
    rw [List.flatMap_cons, List.append_assoc, namesFrom_lines, ih hlinking.start,
      namesIn_cons_cons]
    cases hflushes : (s.statement x).flushes y.head with
    | true =>
      have hnot : ¬ TakesOver x y := fun h =>
        Bool.noConfusion (hflushes.symm.trans ((not_flushes_iff hlinking y.head).2 h))
      have husers : ((s.statement x).begin y.head).users = [] := by
        rw [begin, hflushes]
        rfl
      rw [if_pos rfl, if_neg hnot, husers]
      rfl
    | false =>
      have htakes : TakesOver x y := (not_flushes_iff hlinking y.head).1 hflushes
      have husers : ((s.statement x).begin y.head).users = (s.begin x.head).users ++ x.users := by
        rw [begin, hflushes]
        rfl
      rw [if_neg Bool.false_ne_true, if_pos htakes, List.nil_append, husers]

end LoadState

theorem inside_textOf (d : List Statement) : Inside (textOf d) ↔ NamesFit d := by
  have hlines : ∀ l ∈ d.flatMap Statement.lines, newline ∉ l := by
    intro l hl
    obtain ⟨x, -, hl⟩ := List.mem_flatMap.1 hl
    exact x.oneLine l hl
  have hnames : LoadState.namesFrom .init (d.flatMap Statement.lines ++ [[]]) = namesIn [] d := by
    cases d with
    | nil => rfl
    | cons x d =>
      have hinit := LoadState.flushes_init x.head
      have hbegin : (LoadState.init.begin x.head).users = [] := by
        rw [LoadState.begin, hinit]
        rfl
      rw [List.flatMap_cons, List.append_assoc, LoadState.namesFrom_lines, hinit,
        LoadState.namesFrom_statements rfl, hbegin]
      rfl
  rw [Inside, textOf, splitOnP_lines hlines, hnames, NamesFit]

theorem namesIn_append {d₁ d₂ : List Statement} (before : List Text) (h₁ : d₁ ≠ [])
    (h₂ : d₂ ≠ []) (h : ∀ x ∈ d₁.getLast?, ∀ y ∈ d₂.head?, ¬ TakesOver x y) :
    namesIn before (d₁ ++ d₂) = namesIn before d₁ ++ namesIn [] d₂ := by
  induction d₁ generalizing before with
  | nil => exact absurd rfl h₁
  | cons x d₁ ih =>
    cases d₁ with
    | nil =>
      cases d₂ with
      | nil => exact absurd rfl h₂
      | cons y d₂ =>
        show namesIn before (x :: y :: d₂) = _
        rw [namesIn_cons_cons, if_neg (h x rfl y rfl)]
        rfl
    | cons x' d₁ =>
      have ih := fun before => ih before (List.cons_ne_nil x' d₁) (by simpa using h)
      show namesIn before (x :: x' :: (d₁ ++ d₂)) = _
      rw [namesIn_cons_cons, namesIn_cons_cons]
      split_ifs
      · exact ih _
      · rw [List.append_assoc]
        exact congrArg (x.names before ++ ·) (ih [])

theorem linkNames_of_short {users : List Text} (stmt : Stmt) (tport : Text) (cost : AdjCost)
    (cstatus : AdjCost.ParseStatus) (h : users.length ≤ 1) :
    linkNames stmt users tport cost cstatus = [] := if_neg (Nat.not_lt.2 h)

theorem merges_concat_cons (d₁ d₂ : List Statement) (x y : Statement) :
    Merges (d₁ ++ [x]) (y :: d₂) ↔
      (x.head.stmt = .link ∨ x.head.stmt = .mesh) ∧ y.head.stmt = .cube ∧
        1 ≤ x.users.length ∧ 2 ≤ x.users.length + y.users.length := by
  rw [Merges, List.getLast?_concat, List.head?_cons]
  constructor
  · rintro ⟨x', hx, y', hy, h⟩
    obtain rfl := Option.some.inj hx
    obtain rfl := Option.some.inj hy
    exact h
  · intro h
    exact ⟨x, rfl, y, rfl, h⟩

theorem connsOf_append_iff (d₁ d₂ : List Statement) :
    connsOf (textOf (d₁ ++ d₂)) = connsOf (textOf d₁) ++ connsOf (textOf d₂) ↔
      ¬ Merges d₁ d₂ := by
  rw [LoadState.connsOf_textOf, LoadState.connsOf_textOf, LoadState.connsOf_textOf]
  cases d₁ using List.reverseRecOn with
  | nil =>
    refine iff_of_true rfl ?_
    rintro ⟨x, hx, -⟩
    exact absurd hx (by simp)
  | append_singleton d x =>
    obtain ⟨hs, hstmt, husers⟩ := LoadState.foldl_statement_concat d x
    have hfirst : LoadState.connsFrom .init (d ++ [x]) =
        ((d ++ [x]).foldl LoadState.statement .init).conns ++
          ((d ++ [x]).foldl LoadState.statement .init).pending :=
      hs.connsFrom_nil
    have hboth : LoadState.connsFrom .init (d ++ [x] ++ d₂) =
        LoadState.connsFrom ((d ++ [x]).foldl LoadState.statement .init) d₂ := by
      rw [LoadState.connsFrom, List.foldl_append, LoadState.connsFrom]
    rw [hfirst, hboth]
    cases d₂ with
    | nil =>
      refine iff_of_true ?_ ?_
      · rw [hs.connsFrom_nil, LoadState.connsFrom_init_nil, List.append_nil]
      · rintro ⟨_, -, y, hy, -⟩
        exact absurd hy (by simp)
    | cons y d₂ =>
      rw [LoadState.connsFrom_cons_iff hs, merges_concat_cons, LoadState.not_flushes_iff hs, hstmt]
      refine not_congr ⟨?_, ?_⟩
      · rintro ⟨⟨hcube, hlink⟩, hmany⟩
        have hne : x.head.stmt ≠ .cube := by
          intro h
          rw [h] at hlink
          exact absurd hlink (by decide)
        rw [husers hne] at hmany
        exact ⟨hlink, hcube, hmany⟩
      · rintro ⟨hlink, hcube, hmany⟩
        have hne : x.head.stmt ≠ .cube := by
          intro h
          rw [h] at hlink
          exact absurd hlink (by decide)
        rw [husers hne]
        exact ⟨⟨hcube, hlink⟩, hmany⟩

/-- Without a cube that takes over users, the names are those of the two descriptions. -/
theorem namesIn_append_of_not_merges {d₁ d₂ : List Statement} (h : ¬ Merges d₁ d₂) :
    namesIn [] (d₁ ++ d₂) = namesIn [] d₁ ++ namesIn [] d₂ := by
  cases d₂ with
  | nil => rw [List.append_nil, namesIn, List.append_nil]
  | cons y d₂ =>
  cases d₁ using List.reverseRecOn with
  | nil => rfl
  | append_singleton d x =>
  rw [merges_concat_cons] at h
  by_cases htakes : TakesOver x y
  swap
  · refine namesIn_append [] (by simp) (List.cons_ne_nil y d₂) fun x' hx y' hy => ?_
    rw [List.getLast?_concat] at hx
    obtain rfl := Option.some.inj hx
    obtain rfl := Option.some.inj hy
    exact htakes
  -- the cube has at most one user with those that it takes over, so no name is built
  have hfew : x.users.length = 0 ∨ x.users.length + y.users.length ≤ 1 := by
    by_contra hmany
    exact h ⟨htakes.2, htakes.1, by omega, by omega⟩
  have hx : x.names [] = [] := linkNames_of_short _ _ _ _ (by rw [List.nil_append]; omega)
  have hy : namesIn x.users (y :: d₂) = namesIn [] (y :: d₂) := by
    rcases hfew with hnil | hone
    · rw [List.eq_nil_of_length_eq_zero hnil]
    · have hnames : ∀ before : List Text, before.length + y.users.length ≤ 1 →
          y.names before = [] := fun before hle =>
        linkNames_of_short _ _ _ _ (by rw [List.length_append]; exact hle)
      have hself := hnames [] (by rw [List.length_nil]; omega)
      cases d₂ with
      | nil => exact (hnames _ hone).trans hself.symm
      | cons z d₂ =>
        have hnot : ¬ TakesOver y z := by
          rintro ⟨-, hlink⟩
          rw [htakes.1] at hlink
          exact absurd hlink (by decide)
        rw [namesIn_cons_cons, namesIn_cons_cons, if_neg hnot, if_neg hnot, hnames _ hone, hself]
  have hlast : ∀ d₂' : List Statement, namesIn [] (d ++ x :: d₂') =
      namesIn [] d ++ namesIn [] (x :: d₂') := by
    intro d₂'
    cases d with
    | nil => rfl
    | cons w d =>
      refine namesIn_append [] (List.cons_ne_nil w d) (List.cons_ne_nil x d₂') ?_
      rintro w' - x' hx' ⟨hcube, -⟩
      obtain rfl := Option.some.inj hx'
      have hlink := htakes.2
      rw [hcube] at hlink
      exact absurd hlink (by decide)
  have hone : namesIn [] [x] = [] := hx
  rw [List.append_assoc, List.singleton_append, hlast, hlast, namesIn_cons_cons, if_pos htakes,
    List.nil_append, hy, hone, List.append_nil]

/-- A statement that is loaded alone. -/
theorem connsOf_single (x : Statement) : connsOf (textOf [x]) = x.conns := by
  have hs := (LoadState.foldl_statement_concat [] x).1
  rw [LoadState.connsOf_textOf]
  refine hs.connsFrom_nil.trans ?_
  obtain ⟨-, hconns, hpending⟩ :=
    LoadState.statement_of_not_flushes (LoadState.flushes_init x.head)
  show (LoadState.init.statement x).conns ++ (LoadState.init.statement x).pending = _
  rw [hconns, hpending]
  rfl

/-- No statement takes over the users of the one before it. -/
def Apart : List Statement → Prop
  | x :: y :: d => ¬ Merges [x] [y] ∧ Apart (y :: d)
  | _ => True

theorem not_merges_cons {x y : Statement} (h : ¬ Merges [x] [y]) (d : List Statement) :
    ¬ Merges [x] (y :: d) := by
  rw [← List.nil_append [x], merges_concat_cons] at h ⊢
  exact h

theorem connsOf_of_apart {d : List Statement} (h : Apart d) :
    connsOf (textOf d) = d.flatMap Statement.conns := by
  induction d with
  | nil => rfl
  | cons x d ih =>
    cases d with
    | nil => rw [connsOf_single, List.flatMap_cons, List.flatMap_nil, List.append_nil]
    | cons y d =>
      obtain ⟨hxy, hrest⟩ := h
      have happend := (connsOf_append_iff [x] (y :: d)).2 (not_merges_cons hxy d)
      rw [List.singleton_append] at happend
      rw [happend, connsOf_single, ih hrest]
      rfl

theorem namesFit_of_apart {d : List Statement} (h : Apart d) :
    NamesFit d ↔ ∀ x ∈ d, ∀ name ∈ x.names [], name.length < nameSize := by
  have hnames : namesIn [] d = d.flatMap (Statement.names · []) := by
    induction d with
    | nil => rfl
    | cons x d ih =>
      cases d with
      | nil =>
        rw [List.flatMap_cons, List.flatMap_nil, List.append_nil]
        rfl
      | cons y d =>
        obtain ⟨hxy, hrest⟩ := h
        have happend := namesIn_append_of_not_merges (not_merges_cons hxy d)
        rw [List.singleton_append] at happend
        rw [happend, ih hrest]
        rfl
  rw [NamesFit, hnames, List.forall_mem_flatMap]

/-- Two descriptions give their connections one after the other unless the second begins
with a cube that takes over users of the first, or a name is too long for the buffer that it
is built in; and a description without such a cube gives those of each of its statements. -/
theorem load_graph_concat (d₁ d₂ : List Statement) :
    (Inside (textOf (d₁ ++ d₂)) ∧
        connsOf (textOf (d₁ ++ d₂)) = connsOf (textOf d₁) ++ connsOf (textOf d₂) ↔
      NamesFit d₁ ∧ NamesFit d₂ ∧ ¬ Merges d₁ d₂) ∧
      (Apart d₁ → connsOf (textOf d₁) = d₁.flatMap Statement.conns ∧
        (Inside (textOf d₁) ↔ ∀ x ∈ d₁, ∀ name ∈ x.names [], name.length < nameSize)) := by
  refine ⟨?_, fun h => ⟨connsOf_of_apart h, (inside_textOf d₁).trans (namesFit_of_apart h)⟩⟩
  rw [inside_textOf, connsOf_append_iff, ← and_assoc]
  refine and_congr_left fun hmerge => ?_
  rw [NamesFit, namesIn_append_of_not_merges hmerge]
  exact List.forall_mem_append

/-- A `tcp_` statement of two users. -/
def tcpStatement : Statement where
  first := text "tcp_x A B"
  more := []
  head := ⟨.link, text "tcp", text "x"⟩
  args := [text "A", text "B"]
  begins := ⟨text "tcp_x", by decide, by decide⟩
  continues := List.forall_mem_nil _
  oneLine := by decide

def cubeStatement : Statement where
  first := text "cube_y C D"
  more := []
  head := ⟨.cube, text "tcp", text "y"⟩
  args := [text "C", text "D"]
  begins := ⟨text "cube_y", by decide, by decide⟩
  continues := List.forall_mem_nil _
  oneLine := by decide

/-- A `tcp_` statement after a cube takes over nothing. -/
theorem load_graph_concat_two :
    Inside (textOf [cubeStatement, tcpStatement]) ∧
      connsOf (textOf [cubeStatement, tcpStatement]) =
        cubeStatement.conns ++ tcpStatement.conns := by
  have hapart : ¬ Merges [cubeStatement] [tcpStatement] := by
    rintro ⟨x, -, y, hy, -, hcube, -⟩
    obtain rfl : tcpStatement = y := Option.some.inj hy
    exact absurd hcube (by decide)
  obtain ⟨hconns, hinside⟩ :=
    (load_graph_concat [cubeStatement, tcpStatement] []).2 ⟨hapart, trivial⟩
  exact ⟨hinside.2 (by decide +kernel), hconns⟩

/-- A cube of two users after a connection of two others is a cube of four. -/
theorem cube_takes_over :
    connsOf (textOf ([tcpStatement] ++ [cubeStatement])) ≠
      connsOf (textOf [tcpStatement]) ++ connsOf (textOf [cubeStatement]) := by
  decide +kernel

end LoadGraph

end Raims
