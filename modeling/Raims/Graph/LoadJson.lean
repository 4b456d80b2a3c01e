import Mathlib.Data.List.DropRight
import Raims.Graph.CostText
import Raims.Graph.LoadedGraph

/-!
# Loading adjacency rows (`AdjGraph::load_json`)

Each row names a user, or goes on with the last one that was named, and a user that it
links to, with up to four costs. The id of a user is behind the last dot of the string; it
is read from the end, so that `a.1` and `a.10` are one user. Four costs are taken if ten
fields were filled, and a row has nine.
-/

namespace Raims

namespace LoadJson

open AdjCost (isDigit)
open PrintGraph (allLinks allLinks_addUser map_modify flatMap_modify_perm)

/-! ## The source -/

/-- A row of the array that `JsonMsgCtx` gives: the fields that it has, as they fit in the
record. -/
structure JsonRow where
  user : Option Text
  adj : Option Text
  tport : Option Text
  type : Option Text
  cost : Option UInt32
  cost2 : Option UInt32
  cost3 : Option UInt32
  cost4 : Option UInt32
  rem : Option UInt32

/-- `AdjRec` -/
structure AdjRec where
  user : Text
  adj : Text
  tport : Text
  type : Text
  cost : List UInt32
  rem : UInt32

/-- `strlen` and what is before it. -/
def cstr (t : Text) : Text := t.takeWhile (· ≠ 0)

/-- `MDIterMap::get_map` with the maps of `iter_map`: the record is zero where the row has
no field, and the fields that were filled are counted. The tenth map is not set. -/
def getMap (r : JsonRow) : AdjRec × ℕ :=
  (⟨cstr (r.user.getD []), cstr (r.adj.getD []), cstr (r.tport.getD []), cstr (r.type.getD []),
      [r.cost.getD 0, r.cost2.getD 0, r.cost3.getD 0, r.cost4.getD 0], r.rem.getD 0⟩,
    ([r.user, r.adj, r.tport, r.type].filter Option.isSome).length +
      ([r.cost, r.cost2, r.cost3, r.cost4, r.rem].filter Option.isSome).length)

/-- The loop of `strlen_dig` over the digits at the end: where it stops, and the id. -/
def digLoop (s : Text) : ℕ → UInt32 → ℕ × UInt32
  | 0, id => (0, id)
  | i + 1, id =>
    let c := s.getD i 0
    if isDigit c then digLoop s i (id * 10 + (c - 0x30).toUInt32) else (i + 1, id)

/-- `strlen_dig`: the length of the name, and the id. -/
def strlenDig (s : Text) : ℕ × UInt32 :=
  let len := s.length
  if 2 < len ∧ s.getD (len - 1) 0 = 0x2a ∧ s.getD (len - 2) 0 = 0x2e then (len - 2, 0)
  else
    let r := digLoop s len 0
    if 0 < r.1 ∧ r.1 < len ∧ s.getD (r.1 - 1) 0 = 0x2e then (r.1 - 1, r.2) else (len, 0)

/-- `add_user( StringVal( s, strlen_dig( s, uid ) ), uid )` -/
def addNamed (g : AdjGraph) (s : Text) : AdjGraph × ℕ :=
  let r := strlenDig s
  g.addUser (nameOf (s.take r.1)) r.2.toNat

/-- The first pass: the users that are named. -/
def addUsers (g : AdjGraph) (rows : List JsonRow) : AdjGraph :=
  rows.foldl (fun g r =>
    let row := (getMap r).1
    if row.user ≠ [] then (addNamed g row.user).1 else g) g

/-- One row of the second pass, with `last_user`; none when that is null. -/
def addRow (g : AdjGraph) (last : Option ℕ) (r : JsonRow) : Option (AdjGraph × Option ℕ) :=
  let (row, n) := getMap r
  let tp := nameOf (row.tport.take (strlenDig row.tport).1)
  let (g, last) :=
    if row.user ≠ [] then
      let u := addNamed g row.user
      (u.1, some u.2)
    else (g, last)
  let adj := addNamed g row.adj
  let cnt := if n = 10 then 4 else 1
  let cost := AdjCost.setArray (row.cost.take cnt)
  last.map fun u => (adj.1.addLink u adj.2 tp (nameOf row.type) cost 0, some u)

/-- The second pass. -/
def addRows : AdjGraph → Option ℕ → List JsonRow → Option AdjGraph
  | g, _, [] => some g
  | g, last, r :: rows => do
      let (g, last) ← addRow g last r
      addRows g last rows

/-- `load_json`, of an array of rows. -/
def loadJson (pathLimit : ℕ) (rows : List JsonRow) : Option AdjGraph :=
  addRows (addUsers (.empty pathLimit) rows) none rows

/-! ## What the rows say -/

/-- The digits at the end. -/
def lastDigits (s : Text) : Text := s.rtakeWhile isDigit

/-- What is before them. -/
def stem (s : Text) : Text := s.rdropWhile isDigit

/-- A string of the form `name.*`. -/
def IsStar (s : Text) : Prop := 2 < s.length ∧ [0x2e, 0x2a] <:+ s

/-- A string of the form `name.id`. -/
def HasId (s : Text) : Prop := lastDigits s ≠ [] ∧ (stem s).getLast? = some 0x2e

instance (s : Text) : Decidable (IsStar s) := inferInstanceAs (Decidable (_ ∧ _))

instance (s : Text) : Decidable (HasId s) := inferInstanceAs (Decidable (_ ∧ _))

/-- The name of a user. -/
def userName (s : Text) : Text :=
  if IsStar s then s.dropLast.dropLast else if HasId s then (stem s).dropLast else s

/-- The digits of the id; none for the id 0. -/
def idDigits (s : Text) : Text := if IsStar s then [] else if HasId s then lastDigits s else []

/-- The number that digits say. -/
def number (ds : Text) : ℕ := ds.foldl (fun n d => n * 10 + (d.toNat - 0x30)) 0

/-- The decimal id of a user. -/
def decimalId (s : Text) : ℕ := number (idDigits s)

/-- The id that is read from the end, as a `uint32_t`. -/
def backwardId (s : Text) : ℕ := number (idDigits s).reverse % 2 ^ 32

namespace JsonRow

variable (r : JsonRow)

def userText : Text := cstr (r.user.getD [])

def adjText : Text := cstr (r.adj.getD [])

/-- The cost of the row: of four if all are there, else of the first alone. -/
def linkCost : AdjCost :=
  match r.cost, r.cost2, r.cost3, r.cost4 with
  | some c, some c2, some c3, some c4 => .setArray [c, c2, c3, c4]
  | c, _, _, _ => .setArray [c.getD 0]

/-- If all four costs are there they are the same. -/
def OneCost : Prop :=
  ∀ c ∈ r.cost, ∀ c2 ∈ r.cost2, ∀ c3 ∈ r.cost3, ∀ c4 ∈ r.cost4, c2 = c ∧ c3 = c ∧ c4 = c

end JsonRow

/-- The rows with the user they are of: the one they name, or the last one named. -/
def sources : Text → List JsonRow → List (Text × JsonRow)
  | _, [] => []
  | last, r :: rows =>
    let last := if r.userText ≠ [] then r.userText else last
    (last, r) :: sources last rows

/-- The strings of users. -/
def userTexts (rows : List JsonRow) : List Text :=
  (rows.map JsonRow.userText).filter (· ≠ []) ++ rows.map JsonRow.adjText

/-- The user of the graph for a string. -/
def mapped (g : AdjGraph) (s : Text) : Option ℕ :=
  let r := strlenDig s
  g.find (nameOf (s.take r.1)) r.2.toNat

/-- The graph is what the rows say. -/
structure Says (rows : List JsonRow) (g : AdjGraph) : Prop where
  found : ∀ s ∈ userTexts rows, (mapped g s).isSome
  users : ∀ s ∈ userTexts rows, ∀ t ∈ userTexts rows,
    (mapped g s = mapped g t ↔ userName s = userName t ∧ decimalId s = decimalId t)
  links : ((allLinks g).map fun l => (some l.a, some l.b, l.cost)).Perm
    ((sources [] rows).map fun p => (mapped g p.1, mapped g p.2.adjText, p.2.linkCost))

/-- Ids of one name are the same when they are read from the end exactly if they are the
same, and no row has four costs that differ. -/
def Readable (rows : List JsonRow) : Prop :=
  (∀ s ∈ userTexts rows, ∀ t ∈ userTexts rows, userName s = userName t →
    (backwardId s = backwardId t ↔ decimalId s = decimalId t)) ∧
    ∀ r ∈ rows, r.OneCost

/-! ## `strlen_dig` -/

variable {s t : Text} {g : AdjGraph}

theorem digLoop_eq (l rest : Text) (id : UInt32) :
    digLoop (l ++ rest) l.length id =
      ((stem l).length, (lastDigits l).reverse.foldl
        (fun id c => id * 10 + (c - 0x30).toUInt32) id) := by
  induction l using List.reverseRecOn generalizing rest id with
  | nil => rfl
  | append_singleton l c ih =>
    have hget : (l ++ [c] ++ rest).getD l.length 0 = c := by simp
    rw [List.length_append, List.length_singleton, digLoop, hget]
    split
    · next hdigit =>
        rw [List.append_assoc, ih, stem, lastDigits, stem, lastDigits,
          List.rdropWhile_concat_pos _ _ _ hdigit, List.rtakeWhile_concat_pos _ _ _ hdigit,
          List.reverse_append]
        rfl
    · next hdigit =>
        rw [stem, lastDigits, List.rdropWhile_concat_neg _ _ _ hdigit,
          List.rtakeWhile_concat_neg _ _ _ hdigit, List.length_append]
        rfl

/-- The loop computes with 32 bits. -/
theorem toNat_foldl_digits {ds : Text} (hds : ∀ d ∈ ds, isDigit d = true) (id : UInt32) (n : ℕ)
    (hid : id.toNat = n % 2 ^ 32) :
    (ds.foldl (fun id c => id * 10 + (c - 0x30).toUInt32) id).toNat =
      ds.foldl (fun n d => n * 10 + (d.toNat - 0x30)) n % 2 ^ 32 := by
  induction ds generalizing id n with
  | nil => exact hid
  | cons d ds ih =>
    rw [List.foldl_cons, List.foldl_cons]
    refine ih (fun x hx => hds x (List.mem_cons_of_mem d hx)) _ _ ?_
    have hdigit := hds d List.mem_cons_self
    rw [isDigit, decide_eq_true_eq, UInt8.le_iff_toNat_le, UInt8.le_iff_toNat_le] at hdigit
    have hsub : (d - 0x30).toUInt32.toNat = d.toNat - 0x30 := by
      rw [UInt8.toNat_toUInt32, UInt8.toNat_sub_of_le d 0x30 (UInt8.le_iff_toNat_le.2 hdigit.1)]
      rfl
    rw [UInt32.toNat_add, UInt32.toNat_mul, hsub, hid]
    show (n % 2 ^ 32 * 10 % 2 ^ 32 + (d.toNat - 0x30)) % 2 ^ 32 = _
    omega

theorem stem_append_lastDigits (s : Text) : stem s ++ lastDigits s = s :=
  List.rdropWhile_append_rtakeWhile

theorem isStar_iff : IsStar s ↔ 2 < s.length ∧ s.getD (s.length - 1) 0 = 0x2a ∧
    s.getD (s.length - 2) 0 = 0x2e := by
  refine and_congr_right fun hlen => ?_
  obtain ⟨t, x, y, rfl⟩ : ∃ t x y, s = t ++ [x] ++ [y] := by
    rcases s.eq_nil_or_concat' with rfl | ⟨l, y, rfl⟩
    · exact absurd hlen (Nat.not_lt_zero 2)
    · rcases l.eq_nil_or_concat' with rfl | ⟨t, x, rfl⟩
      · exact absurd hlen (show ¬ 2 < 1 by decide)
      · exact ⟨t, x, y, rfl⟩
  have hy : (t ++ [x] ++ [y]).getD ((t ++ [x] ++ [y]).length - 1) 0 = y := by simp
  have hx : (t ++ [x] ++ [y]).getD ((t ++ [x] ++ [y]).length - 2) 0 = x := by simp
  rw [hy, hx, List.append_assoc]
  constructor
  · rintro ⟨l, hl⟩
    obtain ⟨-, htail⟩ := List.append_inj' hl rfl
    cases htail
    exact ⟨rfl, rfl⟩
  · rintro ⟨rfl, rfl⟩
    exact ⟨t, rfl⟩

theorem hasId_iff : HasId s ↔ 0 < (stem s).length ∧ (stem s).length < s.length ∧
    s.getD ((stem s).length - 1) 0 = 0x2e := by
  have hs := stem_append_lastDigits s
  have hlen : (stem s).length + (lastDigits s).length = s.length := by
    rw [← List.length_append, hs]
  have hdigits : lastDigits s ≠ [] ↔ (stem s).length < s.length := by
    rw [← List.length_pos_iff, ← hlen]
    exact Nat.lt_add_right_iff_pos.symm
  have hdot : (stem s).getLast? = some 0x2e ↔
      0 < (stem s).length ∧ s.getD ((stem s).length - 1) 0 = 0x2e := by
    rcases (stem s).eq_nil_or_concat' with hnil | ⟨l, c, hc⟩
    · rw [hnil]
      exact ⟨fun h => (Option.some_ne_none _ h.symm).elim, fun h => absurd h.1 (Nat.lt_irrefl 0)⟩
    · have hget : s.getD ((l ++ [c]).length - 1) 0 = c := by
        rw [← hs, hc]
        simp
      rw [hc, hget, List.getLast?_concat, Option.some.injEq, List.length_append]
      exact (and_iff_right (Nat.succ_pos _)).symm
  rw [HasId, hdigits, hdot]
  exact and_left_comm

theorem prefix_userName (s : Text) : userName s <+: s := by
  unfold userName
  split
  · exact (List.dropLast_prefix _).trans (List.dropLast_prefix _)
  · split
    · exact (List.dropLast_prefix _).trans (List.rdropWhile_prefix _ _)
    · exact List.prefix_rfl

theorem length_userName (s : Text) : (strlenDig s).1 = (userName s).length := by
  have hloop := digLoop_eq s [] 0
  rw [List.append_nil] at hloop
  simp only [strlenDig, userName, ← isStar_iff, hloop, ← hasId_iff]
  by_cases hstar : IsStar s
  · rw [if_pos hstar, if_pos hstar, List.length_dropLast, List.length_dropLast]
    rfl
  · rw [if_neg hstar, if_neg hstar]
    by_cases hid : HasId s
    · rw [if_pos hid, if_pos hid, List.length_dropLast]
    · rw [if_neg hid, if_neg hid]

/-- The id, as it is read from the end. -/
theorem toNat_strlenDig (s : Text) : (strlenDig s).2.toNat = backwardId s := by
  have hloop := digLoop_eq s [] 0
  rw [List.append_nil] at hloop
  simp only [strlenDig, backwardId, idDigits, ← isStar_iff, hloop, ← hasId_iff]
  by_cases hstar : IsStar s
  · rw [if_pos hstar, if_pos hstar]
    rfl
  · rw [if_neg hstar, if_neg hstar]
    by_cases hid : HasId s
    · rw [if_pos hid, if_pos hid]
      refine toNat_foldl_digits ?_ 0 0 rfl
      intro d hd
      exact List.mem_rtakeWhile_imp (List.mem_reverse.1 hd)
    · rw [if_neg hid, if_neg hid]
      rfl

theorem take_strlenDig (s : Text) : s.take (strlenDig s).1 = userName s := by
  rw [length_userName]
  exact (List.prefix_iff_eq_take.1 (prefix_userName s)).symm

/-! ## Users and links of a graph -/

theorem addNamed_eq (g : AdjGraph) (s : Text) :
    addNamed g s = g.addUser (nameOf (userName s)) (backwardId s) := by
  rw [addNamed, take_strlenDig, toNat_strlenDig]

theorem mapped_eq (g : AdjGraph) (s : Text) :
    mapped g s = g.find (nameOf (userName s)) (backwardId s) := by
  rw [mapped, take_strlenDig, toNat_strlenDig]

/-- The name and the id of a user are found where they are. -/
theorem find_eq_some {user : String} {uid k : ℕ} (h : g.find user uid = some k) :
    ∃ hk : k < g.userTab.length, g.userTab[k].user = user ∧ g.userTab[k].uid = uid := by
  obtain ⟨hk, hp, -⟩ := List.findIdx?_eq_some_iff_getElem.1 h
  exact ⟨hk, of_decide_eq_true hp⟩

theorem find_inj {user user' : String} {uid uid' k : ℕ} (h : g.find user uid = some k)
    (h' : g.find user' uid' = some k) : user = user' ∧ uid = uid' := by
  obtain ⟨hk, hu, hi⟩ := find_eq_some h
  obtain ⟨hk', hu', hi'⟩ := find_eq_some h'
  exact ⟨hu.symm.trans hu', hi.symm.trans hi'⟩

/-- Users that were found are found where they were. -/
def Grows (g g' : AdjGraph) : Prop :=
  ∀ user uid k, g.find user uid = some k → g'.find user uid = some k

theorem Grows.refl (g : AdjGraph) : Grows g g := fun _ _ _ h => h

theorem Grows.trans {g₁ g₂ g₃ : AdjGraph} (h : Grows g₁ g₂) (h' : Grows g₂ g₃) : Grows g₁ g₃ :=
  fun user uid k hk => h' user uid k (h user uid k hk)

theorem Grows.mapped {g' : AdjGraph} (h : Grows g g') {k : ℕ}
    (hs : mapped g s = some k) : LoadJson.mapped g' s = some k := by
  rw [mapped_eq] at hs ⊢
  exact h _ _ _ hs

/-- A new user is at the end. -/
theorem addUser_spec (g : AdjGraph) (user : String) (uid : ℕ) :
    Grows g (g.addUser user uid).1 ∧
      (g.addUser user uid).1.find user uid = some (g.addUser user uid).2 := by
  unfold AdjGraph.addUser
  cases hfind : g.find user uid with
  | some k => exact ⟨Grows.refl g, hfind⟩
  | none =>
    constructor
    · intro v j k hk
      rw [AdjGraph.find] at hk ⊢
      rw [List.findIdx?_append, hk]
      rfl
    · show List.findIdx? _ (g.userTab ++ [_]) = _
      rw [AdjGraph.find] at hfind
      rw [List.findIdx?_append, hfind]
      simp

theorem find_addLink (g : AdjGraph) (u1 u2 : ℕ) (tp ty : String) (cost : AdjCost) (tid : ℕ)
    (user : String) (uid : ℕ) :
    (g.addLink u1 u2 tp ty cost tid).find user uid = g.find user uid := by
  have hmap := map_modify (f := fun u : AdjUser => decide (u.user = user ∧ u.uid = uid))
    (fun _ _ => rfl) g.userTab u1
    ⟨u1, u2, tp, ty, cost, tid, g.linkCount, (g.links u1).length⟩
  have hfind := congrArg (List.findIdx? id) hmap
  rw [List.findIdx?_map, List.findIdx?_map] at hfind
  rw [AdjGraph.find, AdjGraph.addLink, AdjGraph.userTab_addPathCount]
  exact hfind

theorem allLinks_addLink {u1 : ℕ} (hu : u1 < g.userTab.length) (u2 : ℕ) (tp ty : String)
    (cost : AdjCost) (tid : ℕ) :
    (allLinks (g.addLink u1 u2 tp ty cost tid)).Perm
      (⟨u1, u2, tp, ty, cost, tid, g.linkCount, (g.links u1).length⟩ :: allLinks g) := by
  rw [allLinks, AdjGraph.addLink, AdjGraph.userTab_addPathCount]
  exact flatMap_modify_perm hu _

theorem allLinks_addUsers (g : AdjGraph) (rows : List JsonRow) :
    allLinks (addUsers g rows) = allLinks g := by
  induction rows generalizing g with
  | nil => rfl
  | cons r rows ih =>
    refine (ih _).trans ?_
    dsimp only
    split
    · rw [addNamed_eq, allLinks_addUser]
    · rfl

/-! ## One row -/

/-- A row has nine fields, so that only its first cost is taken. -/
theorem getMap_snd_lt (r : JsonRow) : (getMap r).2 < 10 := by
  have h1 := List.length_filter_le Option.isSome [r.user, r.adj, r.tport, r.type]
  have h2 := List.length_filter_le Option.isSome [r.cost, r.cost2, r.cost3, r.cost4, r.rem]
  exact Nat.lt_succ_of_le (Nat.add_le_add h1 h2)

/-- The user that a row is of. -/
def sourceOf (last : Text) (r : JsonRow) : Text := if r.userText ≠ [] then r.userText else last

/-- The user of a row, when the row names one and when it does not. -/
theorem source_cases {last : Option ℕ} {text : Text} {r : JsonRow}
    (h : r.userText ≠ [] ∨ ∃ u, last = some u ∧ mapped g text = some u) :
    ∃ g₁ u, (if r.userText ≠ [] then
        ((addNamed g r.userText).1, some (addNamed g r.userText).2)
      else (g, last)) = (g₁, some u) ∧ Grows g g₁ ∧ mapped g₁ (sourceOf text r) = some u ∧
        allLinks g₁ = allLinks g := by
  by_cases huser : r.userText ≠ []
  · rw [if_pos huser, sourceOf, if_pos huser, addNamed_eq]
    have hadd := addUser_spec g (nameOf (userName r.userText)) (backwardId r.userText)
    refine ⟨_, _, rfl, hadd.1, ?_, allLinks_addUser _ _ _⟩
    rw [mapped_eq]
    exact hadd.2
  · obtain ⟨u, rfl, hu⟩ := h.resolve_left huser
    rw [if_neg huser, sourceOf, if_neg huser]
    exact ⟨g, u, rfl, Grows.refl g, hu, rfl⟩

/-- The link of a row. -/
theorem addRow_eq {last : Option ℕ} {r : JsonRow} {g₁ : AdjGraph} {u : ℕ}
    (h : (if r.userText ≠ [] then ((addNamed g r.userText).1, some (addNamed g r.userText).2)
      else (g, last)) = (g₁, some u)) :
    ∃ tp, addRow g last r = some ((addNamed g₁ r.adjText).1.addLink u (addNamed g₁ r.adjText).2 tp
      (nameOf (getMap r).1.type) (.const (r.cost.getD 0)) 0, some u) := by
  have hcost : AdjCost.setArray ((getMap r).1.cost.take (if (getMap r).2 = 10 then 4 else 1)) =
      .const (r.cost.getD 0) := by
    rw [if_neg (getMap_snd_lt r).ne, AdjCost.setArray]
    exact if_pos (by simp [getMap])
  have huser : (getMap r).1.user = r.userText := rfl
  have hadj : (getMap r).1.adj = r.adjText := rfl
  refine ⟨nameOf ((getMap r).1.tport.take (strlenDig (getMap r).1.tport).1), ?_⟩
  rw [addRow]
  simp only [huser, hadj, hcost, h]
  rfl

/-- What one row does. -/
theorem addRow_spec {last : Option ℕ} {text : Text} {r : JsonRow}
    (h : r.userText ≠ [] ∨ ∃ u, last = some u ∧ mapped g text = some u) :
    ∃ g' l, addRow g last r = some (g', some l.a) ∧ Grows g g' ∧
      mapped g' (sourceOf text r) = some l.a ∧ mapped g' r.adjText = some l.b ∧
      l.cost = .const (r.cost.getD 0) ∧ (allLinks g').Perm (l :: allLinks g) := by
  obtain ⟨g₁, u, hrow, hgrows, hsource, hlinks⟩ := source_cases h
  obtain ⟨tp, heq⟩ := addRow_eq hrow
  rw [addNamed_eq] at heq
  have hadd := addUser_spec g₁ (nameOf (userName r.adjText)) (backwardId r.adjText)
  have hsource₂ := hadd.1.mapped hsource
  obtain ⟨hlt, -⟩ := find_eq_some (mapped_eq _ _ ▸ hsource₂)
  have hall := allLinks_addLink hlt
    (g₁.addUser (nameOf (userName r.adjText)) (backwardId r.adjText)).2 tp
    (nameOf (getMap r).1.type) (.const (r.cost.getD 0)) 0
  rw [allLinks_addUser, hlinks] at hall
  refine ⟨_, _, heq, ?_, ?_, ?_, rfl, hall⟩
  · intro v j k hk
    rw [find_addLink]
    exact hadd.1 v j k (hgrows v j k hk)
  · rw [mapped_eq, find_addLink, ← mapped_eq]
    exact hsource₂
  · rw [mapped_eq, find_addLink]
    exact hadd.2

/-! ## The rows -/

theorem sources_cons (last : Text) (r : JsonRow) (rows : List JsonRow) :
    sources last (r :: rows) = (sourceOf last r, r) :: sources (sourceOf last r) rows := rfl

theorem exists_mem_sources {r : JsonRow} {rows : List JsonRow} (hr : r ∈ rows) (last : Text) :
    ∃ p ∈ sources last rows, p.2 = r ∧ (r.userText ≠ [] → p.1 = r.userText) := by
  induction rows generalizing last with
  | nil => exact absurd hr List.not_mem_nil
  | cons r' rows ih =>
    rw [sources_cons]
    rcases List.mem_cons.1 hr with rfl | hr
    · exact ⟨_, List.mem_cons_self, rfl, fun h => if_pos h⟩
    · obtain ⟨p, hp, hpr⟩ := ih hr (sourceOf last r')
      exact ⟨p, List.mem_cons_of_mem _ hp, hpr⟩

theorem snd_mem_of_mem_sources {last : Text} {rows : List JsonRow} {p : Text × JsonRow}
    (hp : p ∈ sources last rows) : p.2 ∈ rows := by
  induction rows generalizing last with
  | nil => exact absurd hp List.not_mem_nil
  | cons r rows ih =>
    rw [sources_cons] at hp
    rcases List.mem_cons.1 hp with rfl | hp
    · exact List.mem_cons_self
    · exact List.mem_cons_of_mem r (ih hp)

/-- The ends and the cost of a link. -/
def ends (l : AdjLink) : Option ℕ × Option ℕ × AdjCost := (some l.a, some l.b, l.cost)

/-- A link of a row, with the cost that the code takes. -/
def rowEnds (g : AdjGraph) (p : Text × JsonRow) : Option ℕ × Option ℕ × AdjCost :=
  (mapped g p.1, mapped g p.2.adjText, .const (p.2.cost.getD 0))

/-- What the second pass does. -/
theorem addRows_spec {last : Option ℕ} {text : Text} {rows : List JsonRow}
    (h : ∀ r ∈ rows.head?, r.userText ≠ [] ∨ ∃ u, last = some u ∧ mapped g text = some u) :
    ∃ g', addRows g last rows = some g' ∧ Grows g g' ∧
      (∀ p ∈ sources text rows, (mapped g' p.1).isSome ∧ (mapped g' p.2.adjText).isSome) ∧
      ((allLinks g').map ends).Perm
        ((sources text rows).map (rowEnds g') ++ (allLinks g).map ends) := by
  induction rows generalizing g last text with
  | nil => exact ⟨g, rfl, Grows.refl g, List.forall_mem_nil _, List.Perm.refl _⟩
  | cons r rows ih =>
    obtain ⟨g₁, l, hrow, hgrows, hsource, hadj, hcost, hall⟩ := addRow_spec (h r rfl)
    have hnext : ∀ r' ∈ rows.head?, r'.userText ≠ [] ∨
        ∃ u, some l.a = some u ∧ mapped g₁ (sourceOf text r) = some u :=
      fun _ _ => .inr ⟨l.a, rfl, hsource⟩
    obtain ⟨g', hrows, hgrows', hfound, hlinks⟩ := ih hnext
    have hsource' := hgrows'.mapped hsource
    have hadj' := hgrows'.mapped hadj
    refine ⟨g', ?_, hgrows.trans hgrows', ?_, ?_⟩
    · rw [addRows, hrow]
      exact hrows
    · intro p hp
      rw [sources_cons] at hp
      rcases List.mem_cons.1 hp with rfl | hp
      · exact ⟨Option.isSome_of_eq_some hsource', Option.isSome_of_eq_some hadj'⟩
      · exact hfound p hp
    · have hends : rowEnds g' (sourceOf text r, r) = ends l := by
        rw [rowEnds, ends, hsource', hadj', hcost]
      rw [sources_cons, List.map_cons, List.cons_append, hends]
      refine hlinks.trans ?_
      exact ((hall.map ends).append_left _).trans List.perm_middle

/-- What is loaded, when the first row names a user. -/
theorem loadJson_spec {rows : List JsonRow} (h : ∀ r ∈ rows.head?, r.userText ≠ [])
    (pathLimit : ℕ) :
    ∃ g, loadJson pathLimit rows = some g ∧ (∀ s ∈ userTexts rows, (mapped g s).isSome) ∧
      ((allLinks g).map ends).Perm ((sources [] rows).map (rowEnds g)) := by
  have hfirst : ∀ r ∈ rows.head?, r.userText ≠ [] ∨
      ∃ u, none = some u ∧ mapped (addUsers (.empty pathLimit) rows) [] = some u :=
    fun r hr => .inl (h r hr)
  obtain ⟨g, hg, -, hfound, hlinks⟩ := addRows_spec hfirst
  refine ⟨g, hg, ?_, ?_⟩
  · intro s hs
    rcases List.mem_append.1 hs with hs | hs
    · obtain ⟨hs, hne⟩ := List.mem_filter.1 hs
      obtain ⟨r, hr, rfl⟩ := List.mem_map.1 hs
      obtain ⟨p, hp, -, hsource⟩ := exists_mem_sources hr []
      exact hsource (of_decide_eq_true hne) ▸ (hfound p hp).1
    · obtain ⟨r, hr, rfl⟩ := List.mem_map.1 hs
      obtain ⟨p, hp, rfl, -⟩ := exists_mem_sources hr []
      exact (hfound p hp).2
  · have hnone : allLinks (.empty pathLimit) = [] := rfl
    rwa [allLinks_addUsers, hnone, List.map_nil, List.append_nil] at hlinks

/-! ## What the code takes and what the rows say -/

theorem text_nameOf (t : Text) : text (nameOf t) = t := by
  rw [text, nameOf, String.toList_ofList, List.map_map]
  have hid : ∀ c ∈ t, ((fun c : Char => UInt8.ofNat c.toNat) ∘
      fun c : UInt8 => Char.ofNat c.toNat) c = c := by
    intro c _
    have hvalid : c.toNat.isValidChar := .inl (c.toNat_lt.trans (by decide))
    rw [Function.comp_apply, Char.ofNat, dif_pos hvalid]
    exact UInt8.ofNat_toNat
  exact (List.map_congr_left hid).trans (List.map_id _)

theorem mapped_eq_iff (hs : (mapped g s).isSome) :
    mapped g s = mapped g t ↔ userName s = userName t ∧ backwardId s = backwardId t := by
  constructor
  · intro h
    obtain ⟨k, hk⟩ := Option.isSome_iff_exists.1 hs
    have hk' := h.symm.trans hk
    rw [mapped_eq] at hk hk'
    obtain ⟨hname, hid⟩ := find_inj hk hk'
    refine ⟨?_, hid⟩
    rw [← text_nameOf (userName s), hname, text_nameOf]
  · rintro ⟨hname, hid⟩
    rw [mapped_eq, mapped_eq, hname, hid]

/-- Four costs that are not the same are on two paths or on four. -/
theorem count_setArray_four {c c2 c3 c4 : UInt32}
    (h : (AdjCost.setArray [c, c2, c3, c4]).path.count = 1) : c2 = c ∧ c3 = c ∧ c4 = c := by
  by_contra hne
  have hall : ([c, c2, c3, c4].all (· = [c, c2, c3, c4].headD 0)) = false := by
    simpa [imp_iff_not_or] using fun h2 h3 h4 => hne ⟨h2, h3, h4⟩
  rw [AdjCost.setArray] at h
  simp only [hall, Bool.false_eq_true, if_false] at h
  split at h
  · exact absurd h (show ¬ UInt16.ofNat 2 = 1 by decide)
  · exact absurd h (show ¬ UInt16.ofNat 4 = 1 by decide)

/-- The code takes the cost of a row if there is one. -/
theorem JsonRow.OneCost.linkCost_eq {r : JsonRow} (h : r.OneCost) :
    r.linkCost = .const (r.cost.getD 0) := by
  rw [JsonRow.linkCost]
  split
  · next c c2 c3 c4 hc hc2 hc3 hc4 =>
      obtain ⟨rfl, rfl, rfl⟩ := h c hc c2 hc2 c3 hc3 c4 hc4
      rw [hc, AdjCost.setArray]
      exact if_pos (by simp)
  · rw [AdjCost.setArray]
    exact if_pos (by simp)

theorem JsonRow.oneCost_of_count {r : JsonRow} (h : r.linkCost.path.count = 1) : r.OneCost := by
  intro c hc c2 hc2 c3 hc3 c4 hc4
  rw [Option.mem_def] at hc hc2 hc3 hc4
  rw [JsonRow.linkCost, hc, hc2, hc3, hc4] at h
  exact count_setArray_four h

/-- The links are what the rows say if each row has one cost. -/
theorem links_iff {rows : List JsonRow}
    (h : ((allLinks g).map ends).Perm ((sources [] rows).map (rowEnds g))) :
    ((allLinks g).map fun l => (some l.a, some l.b, l.cost)).Perm
        ((sources [] rows).map fun p => (mapped g p.1, mapped g p.2.adjText, p.2.linkCost)) ↔
      ∀ r ∈ rows, r.OneCost := by
  constructor
  · intro hlinks r hr
    obtain ⟨p, hp, rfl, -⟩ := exists_mem_sources hr []
    apply JsonRow.oneCost_of_count
    -- every link that was added has a cost for one path
    have hmem := hlinks.symm.trans h |>.subset (List.mem_map_of_mem hp)
    obtain ⟨q, -, hq⟩ := List.mem_map.1 hmem
    have hcost : AdjCost.const (q.2.cost.getD 0) = p.2.linkCost := congrArg (·.2.2) hq
    rw [← hcost]
    rfl
  · intro hone
    refine h.trans (.of_eq (List.map_congr_left fun p hp => ?_))
    rw [rowEnds, (hone p.2 (snd_mem_of_mem_sources hp)).linkCost_eq]

/-! ## The condition -/

/-- The graph that is loaded is what the rows say exactly if ids can be read from the end
and no costs are dropped. -/
theorem loadJson_says_iff {rows : List JsonRow} (h : ∀ r ∈ rows.head?, r.userText ≠ [])
    (pathLimit : ℕ) :
    (∃ g, loadJson pathLimit rows = some g ∧ Says rows g) ↔ Readable rows := by
  obtain ⟨g, hg, hfound, hlinks⟩ := loadJson_spec h pathLimit
  constructor
  · rintro ⟨g', hg', htold⟩
    obtain rfl : g = g' := Option.some.inj (hg.symm.trans hg')
    refine ⟨fun s hs t ht hname => ?_, (links_iff hlinks).1 htold.links⟩
    have hboth := (mapped_eq_iff (hfound s hs)).symm.trans (htold.users s hs t ht)
    constructor
    · intro hid
      exact (hboth.1 ⟨hname, hid⟩).2
    · intro hid
      exact (hboth.2 ⟨hname, hid⟩).2
  · rintro ⟨hids, hone⟩
    refine ⟨g, hg, hfound, fun s hs t ht => ?_, (links_iff hlinks).2 hone⟩
    rw [mapped_eq_iff (hfound s hs)]
    exact and_congr_right (hids s hs t ht)

/-- The users `a.1`, `b.22`, `a.33` and `c`; the second row is of the user before it and has four
costs, and the last has none. -/
def plainRows : List JsonRow :=
  [⟨some [0x61, 0x2e, 0x31], some [0x62, 0x2e, 0x32, 0x32], some [0x6e], some [0x74, 0x63, 0x70],
      some 100, none, none, none, none⟩,
    ⟨none, some [0x61, 0x2e, 0x33, 0x33], none, none, some 1000, some 1000, some 1000, some 1000,
      none⟩,
    ⟨some [0x62, 0x2e, 0x32, 0x32], some [0x61, 0x2e, 0x31], some [0x6e], some [0x74, 0x63, 0x70],
      some 100, none, none, none, some 0⟩,
    ⟨some [0x63], some [0x61, 0x2e, 0x33, 0x33], none, none, none, none, none, none, none⟩]

theorem readable_plainRows : Readable plainRows := by
  have hids : ∀ s ∈ userTexts plainRows, backwardId s = decimalId s := by decide
  have hcosts : ∀ r ∈ plainRows, ∀ c ∈ r.cost, (∀ x ∈ r.cost2, x = c) ∧ (∀ x ∈ r.cost3, x = c) ∧
      ∀ x ∈ r.cost4, x = c := by simp [plainRows]
  constructor
  · intro s hs t ht _
    rw [hids s hs, hids t ht]
  · intro r hr c hc c2 hc2 c3 hc3 c4 hc4
    obtain ⟨h2, h3, h4⟩ := hcosts r hr c hc
    exact ⟨h2 c2 hc2, h3 c3 hc3, h4 c4 hc4⟩

/-- The row without a user is of `a.1`. -/
theorem loadJson_says_plainRows :
    ((sources [] plainRows).map Prod.fst)[1]? = some [0x61, 0x2e, 0x31] ∧
      ∃ g, loadJson 64 plainRows = some g ∧ Says plainRows g :=
  ⟨by decide, (loadJson_says_iff (by decide) 64).2 readable_plainRows⟩

/-- `a.1` and `a.10`, with four costs. -/
def mergedRows : List JsonRow :=
  [⟨some [0x61, 0x2e, 0x31], some [0x61, 0x2e, 0x31, 0x30], none, none,
    some 1, some 2, some 3, some 4, none⟩]

/-- The user with the id 10 is the one with the id 1. -/
theorem ten_is_one :
    ∃ g, loadJson 64 mergedRows = some g ∧
      mapped g [0x61, 0x2e, 0x31] = mapped g [0x61, 0x2e, 0x31, 0x30] ∧
      decimalId [0x61, 0x2e, 0x31] ≠ decimalId [0x61, 0x2e, 0x31, 0x30] ∧
      ¬ Says mergedRows g := by
  have hfirst : ∀ r ∈ mergedRows.head?, r.userText ≠ [] := by decide
  obtain ⟨g, hg, hfound, -⟩ := loadJson_spec hfirst 64
  have hone : [0x61, 0x2e, 0x31] ∈ userTexts mergedRows := by decide
  have hten : [0x61, 0x2e, 0x31, 0x30] ∈ userTexts mergedRows := by decide
  have hids : decimalId [0x61, 0x2e, 0x31] ≠ decimalId [0x61, 0x2e, 0x31, 0x30] := by decide
  have hmerged := (mapped_eq_iff (t := [0x61, 0x2e, 0x31, 0x30]) (hfound _ hone)).2 (by decide)
  refine ⟨g, hg, hmerged, hids, ?_⟩
  intro htold
  exact hids ((htold.users _ hone _ hten).1 hmerged).2

end LoadJson

end Raims
