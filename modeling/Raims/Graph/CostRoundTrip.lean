import Raims.Graph.CostText

/-!
# What the text of a cost says of it

`str_size` writes the minimum and the path of a cost unless its path is `0/1`, and
`parse` takes two numbers for a maximum and a minimum only if the second is below the
first. So the text says all of a cost whose path is `0/1` exactly when it is the same on
every path, and of another exactly when its minimum is below its maximum and its path is
one of those that there are.
-/

namespace Raims

namespace AdjCost

/-! ## Reading what was written -/

/-- A digit that is read. -/
theorem scan_digit (s : ParseState) {ch : Char} (h : ch.isDigit = true) {v : ℕ}
    (hval : s.val = UInt32.ofNat v) (rest : List UInt8) :
    scan s (UInt8.ofNat ch.toNat :: rest) =
      scan { s with val := UInt32.ofNat (10 * v + (ch.toNat - 48)) } rest := by
  obtain ⟨hlo, hhi⟩ := Char.isDigit_iff_toNat.mp h
  have h48 : (48 : ℕ) ≤ ch.toNat := hlo
  have h57 : ch.toNat ≤ 57 := hhi
  have hbyte : (UInt8.ofNat ch.toNat).toNat = ch.toNat := by
    rw [UInt8.toNat_ofNat']
    exact Nat.mod_eq_of_lt (by omega)
  have hdigit : 0x30 ≤ UInt8.ofNat ch.toNat ∧ UInt8.ofNat ch.toNat ≤ 0x39 := by
    rw [UInt8.le_iff_toNat_le, UInt8.le_iff_toNat_le, hbyte]
    exact ⟨hlo, hhi⟩
  have hsub : (UInt8.ofNat ch.toNat - 0x30).toUInt32 = UInt32.ofNat (ch.toNat - 48) := by
    apply UInt32.toNat_inj.mp
    rw [UInt8.toNat_toUInt32, UInt8.toNat_sub_of_le _ _ hdigit.1, hbyte, UInt32.toNat_ofNat']
    exact (Nat.mod_eq_of_lt (by show ch.toNat - 48 < 2 ^ 32; omega)).symm
  rw [scan, if_pos hdigit, hsub, hval]
  congr 2
  rw [UInt32.ofNat_add, UInt32.ofNat_mul, UInt32.mul_comm]
  rfl

theorem scan_digits (s : ParseState) {chs : List Char} (h : ∀ ch ∈ chs, ch.isDigit = true) {v : ℕ}
    (hval : s.val = UInt32.ofNat v) (rest : List UInt8) :
    scan s (chs.map (fun ch => UInt8.ofNat ch.toNat) ++ rest) =
      scan { s with val := UInt32.ofNat (Nat.ofDigitChars 10 chs v) } rest := by
  induction chs generalizing s v with
  | nil =>
    rw [Nat.ofDigitChars_nil, ← hval]
    rfl
  | cons ch chs ih =>
    rw [List.map_cons, List.cons_append, scan_digit s (h ch List.mem_cons_self) hval]
    rw [ih _ (fun c hc => h c (List.mem_cons_of_mem ch hc)) rfl, Nat.ofDigitChars_cons]
    rfl

/-- A number that was written is read. -/
theorem scan_decimal (s : ParseState) (hval : s.val = 0) (n : UInt32) (rest : List UInt8) :
    scan s (decimal n.toNat ++ rest) = scan { s with val := n } rest := by
  have hdigits : ∀ ch ∈ Nat.toDigits 10 n.toNat, ch.isDigit = true := fun ch hch =>
    Nat.isDigit_of_mem_toDigits (by decide) (by decide) hch
  rw [decimal, scan_digits s hdigits (v := 0) hval, Nat.ofDigitChars_ten_toDigits,
    UInt32.ofNat_toNat]

theorem scan_underscore (s : ParseState) (rest : List UInt8) :
    scan s (0x5f :: rest) =
      scan { s with cost1 := s.cost, cost := s.val, val := 0, op := some 0x5f } rest := by
  rw [scan, if_neg (by decide), if_pos (by decide)]

theorem scan_slash (s : ParseState) (rest : List UInt8) :
    scan s (0x2f :: rest) = scan { s with num := s.val, val := 0 } rest := by
  rw [scan, if_neg (by decide), if_neg (by decide), if_pos rfl]

/-- What is read of a cost that was written. -/
theorem scan_str (c : AdjCost) :
    scan .start c.str =
      some (if c.isFlat then { ParseState.start with val := c.maxCost }
        else ⟨[], some 0x5f, c.path.count.toUInt32, c.minCost, c.maxCost, c.path.num.toUInt32,
          .ok⟩) := by
  have hend : ∀ s : ParseState, scan s [] = some s := fun s => by rw [scan]
  have hnum : c.path.num.toUInt32.toNat = c.path.num.toNat := rfl
  have hcount : c.path.count.toUInt32.toNat = c.path.count.toNat := rfl
  unfold str
  split
  · rw [← List.append_nil (decimal _), scan_decimal _ rfl, hend]
  · rw [scan_decimal _ rfl, scan_underscore, scan_decimal _ rfl, scan_underscore, ← hnum,
      scan_decimal _ rfl, scan_slash, ← hcount, ← List.append_nil (decimal c.path.count.toUInt32.toNat),
      scan_decimal _ rfl, hend]
    rfl

/-! ## Every cost -/

/-- The text of the cost says all of it. -/
def Tells (c : AdjCost) : Prop :=
  if c.isFlat then c.minCost = c.maxCost ∧ c.maxCost ≠ 0
  else c.minCost ≠ 0 ∧ c.minCost < c.maxCost ∧ c.path.num < c.path.count

theorem not_isFlat {c : AdjCost} (h : ¬ c.isFlat) (cost : UInt32) : c ≠ const cost := by
  rintro rfl
  exact h rfl

theorem flat_received {c : AdjCost} (h : c.isFlat) :
    c.received = if c.maxCost ≠ 0 then const c.maxCost else const COST_DEFAULT := by
  rw [received, parse, scan_str, if_pos h]
  simp only [finish, ParseState.start]
  split <;> rfl

/-- A tenth of a cost is not the cost. -/
theorem derivedMin_tenth_ne {cost : UInt32} (h : cost ≠ 0) : derivedMin 0x5f cost ≠ cost := by
  intro heq
  have htenth : cost.toNat / 10 = cost.toNat := congrArg UInt32.toNat heq
  apply h
  apply UInt32.toNat_inj.mp
  show cost.toNat = 0
  omega

theorem received_eq_iff (c : AdjCost) : c.received = c ↔ c.Tells := by
  unfold Tells
  split
  · next hflat =>
    have hpath : c.path = ⟨0, 1⟩ := by
      obtain ⟨hnum, hcount⟩ := of_decide_eq_true hflat
      exact congrArg₂ AdjPath.mk hnum hcount
    rw [flat_received hflat]
    constructor
    · intro heq
      split at heq
      · next hmax => exact ⟨(congrArg AdjCost.minCost heq).symm, hmax⟩
      · next hmax =>
        refine absurd (congrArg AdjCost.maxCost heq) ?_
        rw [not_not] at hmax
        rw [hmax]
        decide
    · rintro ⟨hmin, hmax⟩
      rw [if_pos hmax]
      obtain ⟨maxCost, minCost, path⟩ := c
      cases hmin
      cases hpath
      rfl
  · next hflat =>
    have hwide : c.path.num.toUInt32.toUInt16 = c.path.num ∧
        c.path.count.toUInt32.toUInt16 = c.path.count := ⟨by simp, by simp⟩
    have hle : c.path.count.toUInt32 ≤ c.path.num.toUInt32 ↔ ¬ c.path.num < c.path.count := by
      rw [UInt16.not_lt, UInt32.le_iff_toNat_le, UInt16.le_iff_toNat_le]
      rfl
    rw [received, parse, scan_str, if_neg hflat]
    simp only [finish]
    split
    · next hmin => exact iff_of_false (Ne.symm (not_isFlat hflat _)) fun h => h.1 hmin
    · next hmin =>
      split
      · next hpath =>
        refine iff_of_false (Ne.symm (not_isFlat hflat _)) fun h => ?_
        rcases hpath with hzero | hpath
        · have hcount : c.path.count = 0 := by
            rw [← hwide.2, hzero]
            rfl
          rw [hcount] at h
          exact absurd h.2.2 UInt16.not_lt_zero
        · exact hle.mp hpath h.2.2
      · next hpath =>
        rw [not_or, hle, not_not] at hpath
        have hmin' : derivedMin 0x5f c.minCost ≠ c.minCost := derivedMin_tenth_ne hmin
        by_cases hlt : c.minCost < c.maxCost
        · have hmax : c.maxCost ≠ 0 := by
            intro h0
            rw [h0] at hlt
            exact UInt32.not_lt_zero hlt
          simp only [ne_eq, hmax, not_false_eq_true, hlt, and_self, if_true, hmin, or_self,
            if_false, hwide, hpath.2]
        · simp only [hlt, and_false, if_false, false_and, iff_false]
          intro heq
          split at heq
          · next hzero => exact hmin' (congrArg AdjCost.minCost heq)
          · next hzero => exact hmin' (congrArg AdjCost.minCost heq)

/-! ## The costs that are made -/

/-- The characters of a text, one byte each. -/
def bytes (text : String) : List UInt8 := text.toList.map fun c => UInt8.ofNat c.toNat

/-- The ways to a cost: `parse` of a text and of a list of texts, and `set` of one cost, of a
minimum and a maximum, and of costs by path, of which there is one at least. -/
inductive Origin where
  | text (text : List UInt8)
  | args (args : List (List UInt8))
  | cost (cost : UInt32)
  | range (minCost maxCost : UInt32) (p n : UInt16)
  | byPath (costs : List UInt32) (nonempty : costs ≠ [])

/-- The cost, and `COST_OK` for `set`, that returns no status. -/
def Origin.make : Origin → AdjCost × ParseStatus
  | text l => parse l
  | args as => parseArgs as
  | cost c => (const c, .ok)
  | range minCost maxCost p n => (⟨maxCost, minCost, ⟨p, n⟩⟩, .ok)
  | byPath costs _ => (setArray costs, .ok)

/-- Costs by path are told when they are one cost, or when the paths keep their number in 16
bits and do not become one. -/
def ArrayTells (costs : List UInt32) : Prop :=
  if costs.all (· = costs.headD 0) then costs.headD 0 ≠ 0
  else
    costs.getD (rise costs) 0 ≠ 0 ∧ rise costs % 2 ^ 16 < cycle costs % 2 ^ 16 ∧
      cycle costs % 2 ^ 16 ≠ 1

/-- The numbers of a text that gives a cost. The minimum is below the maximum unless a short
form of a maximum below 10 takes a tenth off. -/
def TextTells (l : List UInt8) : Prop :=
  match lastOp l with
  | none => blankNumbers l ≠ [] → ArrayTells (blankNumbers l ++ [lastNumber l])
  | some op =>
    let cost := lastNumber (before isOp l)
    let cost1 := lastNumber (before isOp (before isOp l))
    let num := (lastNumber (before isSlash l)).toNat % 2 ^ 16
    let count := (lastNumber l).toNat % 2 ^ 16
    if cost < cost1 ∨ op ≠ 0x2d ∨ 10 ≤ cost then num < count ∧ count ≠ 1
    else num = 0 ∧ count = 1

def Origin.Tells : Origin → Prop
  | text l => TextTells (line l)
  | args [l] => TextTells (line l)
  | args as =>
    let costArray := (as.map atoi).filter (· ≠ 0)
    costArray ≠ [] → ArrayTells costArray
  | cost c => c ≠ 0
  | range minCost maxCost p n =>
    if p = 0 ∧ n = 1 then minCost = maxCost ∧ maxCost ≠ 0
    else minCost ≠ 0 ∧ minCost < maxCost ∧ p < n
  | byPath costs _ => ArrayTells costs

theorem const_tells_iff (cost : UInt32) : (const cost).Tells ↔ cost ≠ 0 := by
  rw [Tells, if_pos (show (const cost).isFlat = true from rfl)]
  exact and_iff_right rfl

theorem range_tells_iff (minCost maxCost : UInt32) (p n : UInt16) :
    (⟨maxCost, minCost, ⟨p, n⟩⟩ : AdjCost).Tells ↔
      if p = 0 ∧ n = 1 then minCost = maxCost ∧ maxCost ≠ 0
      else minCost ≠ 0 ∧ minCost < maxCost ∧ p < n := by
  unfold Tells
  simp only [isFlat, decide_eq_true_eq]

/-- A minimum below the maximum is told with the path. -/
theorem below_tells_iff {minCost maxCost : UInt32} (h : minCost < maxCost) (p n : UInt16) :
    (⟨maxCost, minCost, ⟨p, n⟩⟩ : AdjCost).Tells ↔
      minCost ≠ 0 ∧ p.toNat < n.toNat ∧ n.toNat ≠ 1 := by
  have hone : n.toNat ≠ (1 : UInt16).toNat ↔ n ≠ 1 := not_congr UInt16.toNat_inj
  rw [range_tells_iff, show n.toNat ≠ 1 ↔ n ≠ 1 from hone, ← UInt16.lt_iff_toNat_lt]
  split
  · next hflat =>
    refine iff_of_false (fun heq => ?_) fun htells => htells.2.2 hflat.2
    rw [heq.1] at h
    exact UInt32.lt_irrefl _ h
  · next hflat =>
    constructor
    · rintro ⟨hmin, -, hpath⟩
      refine ⟨hmin, hpath, ?_⟩
      rintro rfl
      apply hflat
      refine ⟨?_, rfl⟩
      apply UInt16.toNat_inj.mp
      exact Nat.lt_one_iff.mp (UInt16.lt_iff_toNat_lt.mp hpath)
    · rintro ⟨hmin, hpath, -⟩
      exact ⟨hmin, h, hpath⟩

/-- A minimum that is the maximum is told by the path `0/1`. -/
theorem same_tells_iff {cost : UInt32} (h : cost ≠ 0) (p n : UInt16) :
    (⟨cost, cost, ⟨p, n⟩⟩ : AdjCost).Tells ↔ p.toNat = 0 ∧ n.toNat = 1 := by
  have hpath : p.toNat = (0 : UInt16).toNat ∧ n.toNat = (1 : UInt16).toNat ↔ p = 0 ∧ n = 1 :=
    and_congr UInt16.toNat_inj UInt16.toNat_inj
  rw [range_tells_iff, show p.toNat = 0 ∧ n.toNat = 1 ↔ p = 0 ∧ n = 1 from hpath]
  split
  · next hflat => exact iff_of_true ⟨rfl, h⟩ hflat
  · next hflat => exact iff_of_false (fun htells => UInt32.lt_irrefl _ htells.2.1) hflat

theorem setArray_tells_iff (costs : List UInt32) : (setArray costs).Tells ↔ ArrayTells costs := by
  rw [setArray_eq, ArrayTells]
  split
  · exact const_tells_iff _
  · next hdiff =>
    rw [below_tells_iff (rise_spec hdiff).2, UInt16.toNat_ofNat', UInt16.toNat_ofNat']

/-- A tenth taken off lowers a maximum of 10 or more, and the others always lower it. -/
theorem derivedMin_lt_iff {op : UInt8} (hop : isOp op = true) {cost : UInt32} (hcost : cost ≠ 0) :
    derivedMin op cost < cost ↔ op ≠ 0x2d ∨ 10 ≤ cost := by
  have hpos : 0 < cost.toNat := Nat.pos_of_ne_zero fun h => hcost (UInt32.toNat_inj.mp h)
  have htenth : (cost / 10).toNat = cost.toNat / 10 := rfl
  rw [UInt32.lt_iff_toNat_lt, UInt32.le_iff_toNat_le]
  simp only [isOp, decide_eq_true_eq] at hop
  rcases hop with rfl | rfl | rfl | rfl
  · rw [or_iff_right (not_not_intro rfl)]
    show (cost - cost / 10).toNat < cost.toNat ↔ 10 ≤ cost.toNat
    rw [UInt32.toNat_sub_of_le _ _ (UInt32.le_iff_toNat_le.mpr (by omega)), htenth]
    omega
  · refine iff_of_true ?_ (Or.inl (by decide))
    show cost.toNat / 10 < cost.toNat
    omega
  · refine iff_of_true ?_ (Or.inl (by decide))
    show cost.toNat / 100 < cost.toNat
    omega
  · refine iff_of_true ?_ (Or.inl (by decide))
    show cost.toNat / 1000 < cost.toNat
    omega

/-- The range or the short form, when neither number is zero. -/
theorem ranged_tells_iff {op : UInt8} (hop : isOp op = true) {cost cost1 : UInt32}
    (hcost : cost ≠ 0)
    (hmin : (if cost1 ≠ 0 ∧ cost < cost1 then cost else derivedMin op cost) ≠ 0)
    (num val : UInt32) :
    (⟨if cost1 ≠ 0 ∧ cost < cost1 then cost1 else cost,
      if cost1 ≠ 0 ∧ cost < cost1 then cost else derivedMin op cost,
      ⟨num.toUInt16, val.toUInt16⟩⟩ : AdjCost).Tells ↔
      if cost < cost1 ∨ op ≠ 0x2d ∨ 10 ≤ cost then
        num.toNat % 2 ^ 16 < val.toNat % 2 ^ 16 ∧ val.toNat % 2 ^ 16 ≠ 1
      else num.toNat % 2 ^ 16 = 0 ∧ val.toNat % 2 ^ 16 = 1 := by
  have hnarrow : ∀ n : UInt32, n.toUInt16.toNat = n.toNat % 2 ^ 16 := fun _ => rfl
  have hranged : (cost1 ≠ 0 ∧ cost < cost1) ↔ cost < cost1 := by
    refine and_iff_right_of_imp fun hlt h0 => ?_
    rw [h0] at hlt
    exact UInt32.not_lt_zero hlt
  simp only [hranged] at hmin ⊢
  by_cases hlt : cost < cost1
  · rw [if_pos hlt, if_pos hlt, if_pos (Or.inl hlt), below_tells_iff hlt, hnarrow, hnarrow]
    exact and_iff_right hcost
  · rw [if_neg hlt] at hmin
    have hbelow : (cost < cost1 ∨ op ≠ 0x2d ∨ 10 ≤ cost) ↔ derivedMin op cost < cost := by
      rw [or_iff_right hlt, derivedMin_lt_iff hop hcost]
    rw [if_neg hlt, if_neg hlt]
    split
    · next hcond =>
      rw [below_tells_iff (hbelow.mp hcond), hnarrow, hnarrow]
      exact and_iff_right hmin
    · next hcond =>
      have hsame := mt hbelow.mpr hcond
      have heq : derivedMin op cost = cost :=
        UInt32.le_antisymm (derivedMin_le op cost) (UInt32.not_lt.mp hsame)
      rw [heq, same_tells_iff hcost, hnarrow, hnarrow]

/-- The cost of a text with an operator that is taken. -/
theorem finish_ranged {s : ParseState} {op : UInt8} (h : s.op = some op)
    (hok : (finish s).2 = .ok) :
    s.cost ≠ 0 ∧ (if s.cost1 ≠ 0 ∧ s.cost < s.cost1 then s.cost else derivedMin op s.cost) ≠ 0 ∧
      (finish s).1 =
        ⟨if s.cost1 ≠ 0 ∧ s.cost < s.cost1 then s.cost1 else s.cost,
          if s.cost1 ≠ 0 ∧ s.cost < s.cost1 then s.cost else derivedMin op s.cost,
          ⟨s.num.toUInt16, s.val.toUInt16⟩⟩ := by
  unfold finish at hok ⊢
  rw [h] at hok ⊢
  simp only at hok ⊢
  by_cases hcost : s.cost = 0
  · rw [if_pos hcost] at hok
    cases hok
  · rw [if_neg hcost] at hok ⊢
    by_cases hval : s.val = 0 ∨ s.val ≤ s.num
    · rw [if_pos hval] at hok
      cases hok
    · rw [if_neg hval] at hok ⊢
      by_cases hzero : (if s.cost1 ≠ 0 ∧ s.cost < s.cost1 then s.cost else derivedMin op s.cost) = 0 ∨
          (if s.cost1 ≠ 0 ∧ s.cost < s.cost1 then s.cost1 else s.cost) = 0
      · rw [if_pos hzero] at hok
        cases hok
      · rw [if_neg hzero]
        exact ⟨hcost, (not_or.mp hzero).1, rfl⟩

theorem finish_tells_iff {l : List UInt8} {s : ParseState} (h : Reads l s)
    (hok : (finish s).2 = .ok) : (finish s).1.Tells ↔ TextTells l := by
  unfold TextTells
  cases hop : lastOp l with
  | none =>
    unfold finish at hok ⊢
    simp only [h.op, hop, h.val, h.costArray] at hok ⊢
    split at hok
    · next hval =>
      rw [if_pos hval]
      split
      · next harray => exact (setArray_tells_iff _).trans (imp_iff_right harray).symm
      · next harray => exact iff_of_true ((const_tells_iff _).mpr hval) fun h => absurd h harray
    · cases hok
  | some op =>
    have hisOp : isOp op = true := List.find?_some hop
    obtain ⟨hcost, hmin, heq⟩ := finish_ranged (h.op.trans hop) hok
    simp only [heq, ← h.val, ← h.cost, ← h.cost1, ← h.num]
    exact ranged_tells_iff hisOp hcost hmin _ _

theorem parse_tells_iff {text : List UInt8} (hok : (parse text).2 = .ok) :
    (parse text).1.Tells ↔ TextTells (line text) := by
  unfold parse at hok ⊢
  rw [scan_eq] at hok ⊢
  by_cases hread : readable text = true
  · rw [if_pos hread] at hok ⊢
    exact finish_tells_iff (reads_foldl (line text)) hok
  · rw [if_neg hread] at hok
    cases hok

theorem Origin.make_tells_iff {o : Origin} (hok : o.make.2 = .ok) : o.make.1.Tells ↔ o.Tells := by
  have hargs : ∀ costs : List UInt32,
      (if costs ≠ [] then setArray costs else const COST_DEFAULT).Tells ↔
        (costs ≠ [] → ArrayTells costs) := by
    intro costs
    split
    · next hne => exact (setArray_tells_iff costs).trans (imp_iff_right hne).symm
    · next hne =>
      exact iff_of_true ((const_tells_iff _).mpr (by decide)) fun h => absurd h hne
  cases o with
  | text l => exact parse_tells_iff hok
  | args as =>
    match as with
    | [] => exact hargs _
    | [l] => exact parse_tells_iff hok
    | _ :: _ :: _ => exact hargs _
  | cost c => exact const_tells_iff c
  | range minCost maxCost p n => exact range_tells_iff minCost maxCost p n
  | byPath costs nonempty => exact setArray_tells_iff costs

/-- **A cost that is made comes back from its text exactly when the text tells it.** -/
theorem received_make_iff (o : Origin) (hok : o.make.2 = .ok) :
    o.make.1.received = o.make.1 ↔ o.Tells :=
  (received_eq_iff o.make.1).trans (Origin.make_tells_iff hok)

/-- `1000_100_1/4` -/
theorem received_make_iff_ranged :
    (parse (bytes "1000_100_1/4")).2 = .ok ∧
      (parse (bytes "1000_100_1/4")).1.received = (parse (bytes "1000_100_1/4")).1 := by
  have hok : (Origin.text (bytes "1000_100_1/4")).make.2 = .ok := by decide
  refine ⟨hok, (received_make_iff (.text (bytes "1000_100_1/4")) hok).mpr ?_⟩
  have hop : lastOp (line (bytes "1000_100_1/4")) = some 0x5f := by decide
  show TextTells (line (bytes "1000_100_1/4"))
  unfold TextTells
  rw [hop]
  decide

/-- `1000_100_0/1` is taken, with a minimum on its one path, and its text is `1000`. -/
theorem one_path_loses_min :
    ¬ (∀ o : Origin, o.make.2 = .ok → o.make.1.received = o.make.1) ∧
      (Origin.text (bytes "1000_100_0/1")).make = (⟨1000, 100, ⟨0, 1⟩⟩, .ok) ∧
      (⟨1000, 100, ⟨0, 1⟩⟩ : AdjCost).get 0 = 100 ∧
      (⟨1000, 100, ⟨0, 1⟩⟩ : AdjCost).received = const 1000 := by
  refine ⟨fun h => ?_, by decide, by decide, by decide⟩
  exact absurd (h (.text (bytes "1000_100_0/1")) (by decide)) (by decide)

end AdjCost

end Raims
