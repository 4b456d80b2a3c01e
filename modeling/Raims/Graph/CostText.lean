import Raims.Graph.AdjCost
import Mathlib.Data.List.DropRight
import Mathlib.Data.List.Infix

/-!
# What a text of a cost says, and the cost it gives

The numbers of a text are the digits between its separators. `parse` reads them in one
pass, and here they are said of the text itself: the number at its end, before its last
operator, and so on. The cost is sane, so that it can be taken on any path, unless the
number of paths does not fit in 16 bits, or the minimum of a short form is zero: then the
fields have been set before the text is refused, and `set_field` does not look at the
status.
-/

namespace Raims

namespace AdjCost

/-- A cost that can be taken on any path. -/
structure Sane (c : AdjCost) : Prop where
  count : 1 ≤ c.path.count
  num : c.path.num < c.path.count
  min : 1 ≤ c.minCost
  le : c.minCost ≤ c.maxCost

instance (c : AdjCost) : Decidable c.Sane :=
  decidable_of_iff (1 ≤ c.path.count ∧ c.path.num < c.path.count ∧ 1 ≤ c.minCost ∧
      c.minCost ≤ c.maxCost)
    ⟨fun ⟨h1, h2, h3, h4⟩ => ⟨h1, h2, h3, h4⟩, fun h => ⟨h.count, h.num, h.min, h.le⟩⟩

/-! ## The characters -/

def isDigit (c : UInt8) : Bool := 0x30 ≤ c ∧ c ≤ 0x39

/-- One of `-`, `_`, `=`, `^`. -/
def isOp (c : UInt8) : Bool := c = 0x2d ∨ c = 0x5f ∨ c = 0x3d ∨ c = 0x5e

def isSlash (c : UInt8) : Bool := c = 0x2f

def isBlank (c : UInt8) : Bool := c = 0x20

def isSep (c : UInt8) : Bool := isOp c ∨ isSlash c ∨ isBlank c

/-- `X` or `N`. -/
def isMark (c : UInt8) : Bool := c = 0x58 ∨ c = 0x4e

/-- A control character, or one that is negative, ends the text. -/
def endsText (c : UInt8) : Bool := c < 0x20 ∨ 0x80 ≤ c

def line (text : List UInt8) : List UInt8 := text.takeWhile fun c => !endsText c

def readable (text : List UInt8) : Bool :=
  (line text).all fun c => isDigit c ∨ isSep c ∨ isMark c

/-! ## The numbers of a text -/

/-- The value of the digits, modulo 2^32. -/
def number (digits : List UInt8) : UInt32 :=
  digits.foldl (fun v c => if isDigit c then v * 10 + (c - 0x30).toUInt32 else v) 0

/-- The number that a text ends with. -/
def lastNumber (text : List UInt8) : UInt32 := number (text.rtakeWhile fun c => !isSep c)

/-- The text before the last character of a kind, nothing if there is none. -/
def before (p : UInt8 → Bool) (text : List UInt8) : List UInt8 :=
  (text.rdropWhile fun c => !p c).dropLast

def lastOp (text : List UInt8) : Option UInt8 := text.reverse.find? isOp

/-- The numbers that end with a blank, less those that are zero. -/
def blankNumbers (text : List UInt8) : List UInt32 :=
  ((text.inits.filter fun l => l.getLast?.any isBlank).map fun l => lastNumber l.dropLast).filter
    (0 < ·)

/-- The least maximum from which a short form derives a minimum that is not zero. -/
def shortLeast (op : UInt8) : UInt32 :=
  if op = 0x2d then 1 else if op = 0x5f then 10 else if op = 0x3d then 100 else 1000

/-- Four costs that repeat the first two are two. -/
def cycle (costs : List UInt32) : ℕ :=
  if costs.length = 4 ∧ costs[0]? = costs[2]? ∧ costs[1]? = costs[3]? then 2 else costs.length

/-- The first cost that is below the next one. -/
def rise (costs : List UInt32) : ℕ :=
  (List.range (cycle costs)).findIdx fun i =>
    costs.getD i 0 < costs.getD ((i + 1) % cycle costs) 0

/-- A list of costs by path gives a cost for each path: they are all the same, or the path
and the number of paths are in order when they are cut to 16 bits. -/
def PathsFit (costs : List UInt32) : Prop :=
  costs.all (· = costs.headD 0) = true ∨ rise costs % 2 ^ 16 < cycle costs % 2 ^ 16

/-- The condition on the numbers of the text. -/
def SaneNumbers (l : List UInt8) : Prop :=
  match lastOp l with
  | none => lastNumber l ≠ 0 → blankNumbers l ≠ [] → PathsFit (blankNumbers l ++ [lastNumber l])
  | some op =>
    let cost := lastNumber (before isOp l)
    let cost1 := lastNumber (before isOp (before isOp l))
    let num := lastNumber (before isSlash l)
    let val := lastNumber l
    cost ≠ 0 → val ≠ 0 → num < val →
      (cost < cost1 ∨ shortLeast op ≤ cost) ∧ num.toNat % 2 ^ 16 < val.toNat % 2 ^ 16

def SaneText (text : List UInt8) : Prop := readable text = true → SaneNumbers (line text)

/-! ## The pass over the text -/

/-- One readable character. -/
def read (s : ParseState) (c : UInt8) : ParseState :=
  if isDigit c then { s with val := s.val * 10 + (c - 0x30).toUInt32 }
  else if isOp c then { s with cost1 := s.cost, cost := s.val, val := 0, op := some c }
  else if isSlash c then { s with num := s.val, val := 0 }
  else if isBlank c then
    { s with
      costArray := if 0 < s.val then s.costArray ++ [s.val] else s.costArray
      val := 0 }
  else { s with x := .costX }

theorem scan_cons_read (s : ParseState) {c : UInt8} (rest : List UInt8)
    (h : isDigit c ∨ isSep c ∨ isMark c) : scan s (c :: rest) = scan (read s c) rest := by
  simp only [isDigit, isSep, isOp, isSlash, isBlank, isMark, decide_eq_true_eq] at h
  rw [scan]
  simp only [read, isDigit, isOp, isSlash, isBlank, decide_eq_true_eq]
  split
  · rfl
  · split
    · rfl
    · split
      · rfl
      · split
        · rfl
        · next h1 h2 h3 h4 =>
            have hmark : c = 0x58 ∨ c = 0x4e := by
              rcases h with h | (h | h | h) | h
              · exact absurd h h1
              · exact absurd h h2
              · exact absurd h h3
              · exact absurd h h4
              · exact h
            rw [if_pos hmark]

theorem scan_cons_unread (s : ParseState) {c : UInt8} (rest : List UInt8)
    (h : ¬ (isDigit c ∨ isSep c ∨ isMark c)) :
    scan s (c :: rest) = if endsText c then some s else none := by
  simp only [isDigit, isSep, isOp, isSlash, isBlank, isMark, decide_eq_true_eq, not_or] at h
  obtain ⟨h1, ⟨h2, h3, h4⟩, h5⟩ := h
  rw [scan, if_neg h1, if_neg (by rintro (h | h | h | h) <;> simp_all), if_neg h3, if_neg h4,
    if_neg (by rintro (h | h) <;> simp_all)]
  simp only [endsText, decide_eq_true_eq]

/-- A readable character does not end the text. -/
theorem not_endsText {c : UInt8} (h : isDigit c ∨ isSep c ∨ isMark c) : endsText c = false := by
  simp only [isDigit, isSep, isOp, isSlash, isBlank, isMark, decide_eq_true_eq] at h
  rcases h with ⟨hlo, hhi⟩ | ((rfl | rfl | rfl | rfl) | rfl | rfl) | rfl | rfl
  · simp only [endsText, decide_eq_false_iff_not, not_or,
      UInt8.le_iff_toNat_le, UInt8.lt_iff_toNat_lt] at hlo hhi ⊢
    have h1 : (0x30 : UInt8).toNat = 48 := rfl
    have h2 : (0x39 : UInt8).toNat = 57 := rfl
    have h3 : (0x20 : UInt8).toNat = 32 := rfl
    have h4 : (0x80 : UInt8).toNat = 128 := rfl
    omega
  all_goals rfl

theorem scan_eq (s : ParseState) (text : List UInt8) :
    scan s text = if readable text then some ((line text).foldl read s) else none := by
  induction text generalizing s with
  | nil => rfl
  | cons c rest ih =>
    by_cases hread : isDigit c ∨ isSep c ∨ isMark c
    · have hline : line (c :: rest) = c :: line rest := by
        simp [line, not_endsText hread]
      have hreadable : readable (c :: rest) = readable rest := by
        simp [readable, hline, hread]
      rw [scan_cons_read s rest hread, ih, hreadable, hline]
      rfl
    · rw [scan_cons_unread s rest hread]
      by_cases hends : endsText c = true
      · have hline : line (c :: rest) = [] := by simp [line, hends]
        rw [if_pos hends, readable, hline]
        rfl
      · have hline : line (c :: rest) = c :: line rest := by simp [line, hends]
        have hnot : readable (c :: rest) = false := by
          simp [readable, hline, hread]
        rw [if_neg hends, hnot]
        rfl

/-! ## One more character -/

section Concat

variable (l : List UInt8) {c : UInt8}

theorem lastNumber_concat_sep (h : isSep c = true) : lastNumber (l ++ [c]) = 0 := by
  rw [lastNumber, List.rtakeWhile_concat_neg _ _ _ (by simp [h])]
  rfl

theorem lastNumber_concat_digit (h : isDigit c = true) (hsep : isSep c = false) :
    lastNumber (l ++ [c]) = lastNumber l * 10 + (c - 0x30).toUInt32 := by
  rw [lastNumber, List.rtakeWhile_concat_pos _ _ _ (by simp [hsep]), number, List.foldl_concat,
    if_pos h]
  rfl

theorem lastNumber_concat_mark (h : isDigit c = false) (hsep : isSep c = false) :
    lastNumber (l ++ [c]) = lastNumber l := by
  rw [lastNumber, List.rtakeWhile_concat_pos _ _ _ (by simp [hsep]), number, List.foldl_concat,
    if_neg (by simp [h])]
  rfl

theorem before_concat (p : UInt8 → Bool) (c : UInt8) :
    before p (l ++ [c]) = if p c then l else before p l := by
  unfold before
  split
  · next h => rw [List.rdropWhile_concat_neg _ _ _ (by simp [h]), List.dropLast_concat]
  · next h => rw [List.rdropWhile_concat_pos _ _ _ (by simp [h])]

theorem lastOp_concat (c : UInt8) :
    lastOp (l ++ [c]) = if isOp c then some c else lastOp l := by
  rw [lastOp, List.reverse_concat, List.find?_cons]
  split
  · next h => rw [if_pos h]
  · next h => rw [if_neg (by simp [h]), lastOp]

theorem blankNumbers_concat (c : UInt8) :
    blankNumbers (l ++ [c]) =
      if isBlank c = true ∧ 0 < lastNumber l then blankNumbers l ++ [lastNumber l]
      else blankNumbers l := by
  have hinits : (l ++ [c]).inits = l.inits ++ [l ++ [c]] := by simp [List.inits_append]
  unfold blankNumbers
  rw [hinits, List.filter_append, List.map_append, List.filter_append]
  by_cases hblank : isBlank c = true
  · by_cases hpos : 0 < lastNumber l
    · simp [hblank, hpos]
    · simp [hblank, hpos]
  · simp [hblank]

end Concat

/-- What the pass has read. -/
structure Reads (l : List UInt8) (s : ParseState) : Prop where
  costArray : s.costArray = blankNumbers l
  op : s.op = lastOp l
  val : s.val = lastNumber l
  cost : s.cost = lastNumber (before isOp l)
  cost1 : s.cost1 = lastNumber (before isOp (before isOp l))
  num : s.num = lastNumber (before isSlash l)

theorem reads_start : Reads [] ParseState.start := ⟨rfl, rfl, rfl, rfl, rfl, rfl⟩

/-- The kinds of characters are apart. -/
theorem kinds_apart {c : UInt8} :
    (isDigit c = true → isSep c = false) ∧ (isOp c = true → isSlash c = false ∧ isBlank c = false) ∧
      (isSlash c = true → isBlank c = false) := by
  refine ⟨fun h => ?_, fun h => ?_, fun h => ?_⟩
  · simp only [isDigit, decide_eq_true_eq] at h
    by_contra hsep
    simp only [isSep, isOp, isSlash, isBlank, decide_eq_true_eq, Bool.not_eq_false] at hsep
    rcases hsep with (rfl | rfl | rfl | rfl) | rfl | rfl
    all_goals revert h; decide
  · simp only [isOp, decide_eq_true_eq] at h
    rcases h with rfl | rfl | rfl | rfl
    all_goals exact ⟨rfl, rfl⟩
  · simp only [isSlash, decide_eq_true_eq] at h
    subst h
    rfl

theorem Reads.read {l : List UInt8} {s : ParseState} (h : Reads l s) (c : UInt8) :
    Reads (l ++ [c]) (read s c) := by
  obtain ⟨hdigit, hop, hslash⟩ := kinds_apart (c := c)
  unfold AdjCost.read
  split
  · next hd =>
      have hsep := hdigit hd
      have hnot : isOp c = false ∧ isSlash c = false ∧ isBlank c = false := by
        simpa [isSep] using hsep
      constructor
      · rw [blankNumbers_concat, if_neg (by simp [hnot]), h.costArray]
      · rw [lastOp_concat, if_neg (by simp [hnot]), h.op]
      · rw [lastNumber_concat_digit l hd hsep, h.val]
      · rw [before_concat, if_neg (by simp [hnot]), h.cost]
      · rw [before_concat, if_neg (by simp [hnot]), h.cost1]
      · rw [before_concat, if_neg (by simp [hnot]), h.num]
  · split
    · next hd ho =>
        obtain ⟨hs, hb⟩ := hop ho
        constructor
        · rw [blankNumbers_concat, if_neg (by simp [hb]), h.costArray]
        · rw [lastOp_concat, if_pos ho]
        · rw [lastNumber_concat_sep l (by simp [isSep, ho])]
        · rw [before_concat, if_pos ho, h.val]
        · rw [before_concat, if_pos ho, h.cost]
        · rw [before_concat, if_neg (by simp [hs]), h.num]
    · split
      · next hd ho hs =>
          have hb := hslash hs
          constructor
          · rw [blankNumbers_concat, if_neg (by simp [hb]), h.costArray]
          · rw [lastOp_concat, if_neg ho, h.op]
          · rw [lastNumber_concat_sep l (by simp [isSep, hs])]
          · rw [before_concat, if_neg ho, h.cost]
          · rw [before_concat, if_neg ho, h.cost1]
          · rw [before_concat, if_pos hs, h.val]
      · split
        · next hd ho hs hb =>
            constructor
            · rw [blankNumbers_concat, ← h.val, h.costArray]
              simp [hb]
            · rw [lastOp_concat, if_neg ho, h.op]
            · rw [lastNumber_concat_sep l (by simp [isSep, hb])]
            · rw [before_concat, if_neg ho, h.cost]
            · rw [before_concat, if_neg ho, h.cost1]
            · rw [before_concat, if_neg hs, h.num]
        · next hd ho hs hb =>
            have hsep : isSep c = false := by simp [isSep, ho, hs, hb]
            constructor
            · rw [blankNumbers_concat, if_neg (by simp [hb]), h.costArray]
            · rw [lastOp_concat, if_neg ho, h.op]
            · rw [lastNumber_concat_mark l (by simpa using hd) hsep, h.val]
            · rw [before_concat, if_neg ho, h.cost]
            · rw [before_concat, if_neg ho, h.cost1]
            · rw [before_concat, if_neg hs, h.num]

theorem reads_foldl (l : List UInt8) : Reads l (l.foldl read .start) := by
  induction l using List.reverseRecOn with
  | nil => exact reads_start
  | append_singleton l c ih =>
    rw [List.foldl_concat]
    exact ih.read c

/-! ## A list of costs by path -/

/-- Values around a cycle that never go up are all the same. -/
theorem eq_of_cyclic_le {α : Type} [LinearOrder α] (f : ℕ → α) {n : ℕ}
    (h : ∀ i < n, f ((i + 1) % n) ≤ f i) {i : ℕ} (hi : i < n) : f i = f 0 := by
  have hdown : ∀ i k, i + k < n → f (i + k) ≤ f i := by
    intro i k
    induction k with
    | zero => intro _; exact le_refl _
    | succ k ih =>
      intro hlt
      have hstep := h (i + k) (by omega)
      rw [Nat.mod_eq_of_lt (by omega)] at hstep
      exact hstep.trans (ih (by omega))
  apply le_antisymm
  · simpa using hdown 0 i (by omega)
  · have hlast := hdown i (n - 1 - i) (by omega)
    have hwrap := h (n - 1) (by omega)
    rw [show i + (n - 1 - i) = n - 1 by omega] at hlast
    rw [show n - 1 + 1 = n by omega, Nat.mod_self] at hwrap
    exact hwrap.trans hlast

theorem getD_of_lt {costs : List UInt32} {i : ℕ} (h : i < costs.length) :
    costs.getD i 0 = costs[i] := by
  simp [h]

theorem cycle_le (costs : List UInt32) : cycle costs ≤ costs.length := by
  unfold cycle
  split <;> omega

/-- The costs beyond the cycle repeat it. -/
theorem all_eq_of_cycle {costs : List UInt32}
    (h : ∀ i < cycle costs, costs.getD i 0 = costs.getD 0 0) :
    costs.all (· = costs.headD 0) = true := by
  have hall : ∀ i < costs.length, costs.getD i 0 = costs.getD 0 0 := by
    intro i hi
    by_cases hlt : i < cycle costs
    · exact h i hlt
    · unfold cycle at h hlt
      split at hlt
      · next hfour =>
          obtain ⟨hlen, h02, h13⟩ := hfour
          rw [if_pos ⟨hlen, h02, h13⟩] at h
          have hi : i = 2 ∨ i = 3 := by omega
          rcases hi with rfl | rfl
          · simp only [List.getD_eq_getElem?_getD, h02]
          · have h1 := h 1 (by decide)
            simp only [List.getD_eq_getElem?_getD] at h1 ⊢
            rw [← h13, h1]
      · omega
  rw [List.all_eq_true]
  intro c hc
  obtain ⟨i, hi, rfl⟩ := List.mem_iff_getElem.mp hc
  have hi' := hall i hi
  rw [getD_of_lt hi] at hi'
  rw [decide_eq_true_eq, hi']
  cases costs with
  | nil => rfl
  | cons c' rest => rfl

/-- Costs that are not all the same go up somewhere. -/
theorem rise_spec {costs : List UInt32} (h : ¬ costs.all (· = costs.headD 0) = true) :
    rise costs < cycle costs ∧
      costs.getD (rise costs) 0 < costs.getD ((rise costs + 1) % cycle costs) 0 := by
  have hlt : rise costs < (List.range (cycle costs)).length := by
    rw [rise, List.findIdx_lt_length]
    by_contra hnone
    apply h
    apply all_eq_of_cycle
    intro i hi
    apply UInt32.toNat_inj.mp
    apply eq_of_cyclic_le (fun j => (costs.getD j 0).toNat) _ hi
    intro j hj
    apply le_of_not_gt
    intro hup
    exact hnone ⟨j, List.mem_range.mpr hj, by simpa [UInt32.lt_iff_toNat_lt] using hup⟩
  have hup := List.findIdx_getElem (w := hlt)
  rw [decide_eq_true_eq] at hup
  exact ⟨by simpa using hlt, by simpa [rise] using hup⟩

theorem setArray_eq (costs : List UInt32) :
    setArray costs =
      if costs.all (· = costs.headD 0) then const (costs.headD 0)
      else
        ⟨costs.getD ((rise costs + 1) % cycle costs) 0, costs.getD (rise costs) 0,
          ⟨UInt16.ofNat (rise costs), UInt16.ofNat (cycle costs)⟩⟩ := rfl

theorem one_le_of_ne_zero {cost : UInt32} (h : cost ≠ 0) : 1 ≤ cost := by
  rw [UInt32.le_iff_toNat_le]
  exact Nat.one_le_iff_ne_zero.mpr fun h0 => h (UInt32.toNat_inj.mp h0)

theorem const_sane {cost : UInt32} (h : cost ≠ 0) : (const cost).Sane :=
  ⟨show (1 : UInt16) ≤ 1 by decide, show (0 : UInt16) < 1 by decide, one_le_of_ne_zero h,
    UInt32.le_refl _⟩

/-- With costs that are in order only the narrowing of the path is left. -/
theorem sane_iff {maxCost minCost : UInt32} {path : AdjPath} (hmin : minCost ≠ 0)
    (hle : minCost ≤ maxCost) :
    (⟨maxCost, minCost, path⟩ : AdjCost).Sane ↔ path.num.toNat < path.count.toNat := by
  constructor
  · intro h
    exact UInt16.lt_iff_toNat_lt.mp h.num
  · intro h
    refine ⟨?_, UInt16.lt_iff_toNat_lt.mpr h, one_le_of_ne_zero hmin, hle⟩
    rw [UInt16.le_iff_toNat_le]
    exact Nat.succ_le_of_lt (Nat.zero_lt_of_lt h)

theorem setArray_sane_iff {costs : List UInt32} (hne : costs ≠ []) (hpos : ∀ c ∈ costs, c ≠ 0) :
    (setArray costs).Sane ↔ PathsFit costs := by
  rw [setArray_eq]
  split
  · next hsame =>
      refine iff_of_true (const_sane ?_) (Or.inl hsame)
      rw [List.headD_eq_head?_getD, List.head?_eq_some_head hne]
      exact hpos _ (List.head_mem hne)
  · next hdiff =>
      obtain ⟨hlt, hup⟩ := rise_spec hdiff
      have hmem : costs.getD (rise costs) 0 ∈ costs := by
        rw [getD_of_lt (hlt.trans_le (cycle_le costs))]
        exact List.getElem_mem _
      rw [sane_iff (hpos _ hmem) (UInt32.le_of_lt hup), UInt16.toNat_ofNat', UInt16.toNat_ofNat', PathsFit]
      exact (or_iff_right hdiff).symm

/-! ## The result -/

/-- The minimum of a short form is zero exactly when the maximum is too small. -/
theorem derivedMin_ne_zero_iff {op : UInt8} (hop : isOp op = true) {cost : UInt32}
    (hcost : cost ≠ 0) : derivedMin op cost ≠ 0 ↔ shortLeast op ≤ cost := by
  have hpos : 0 < cost.toNat := Nat.pos_of_ne_zero fun h => hcost (UInt32.toNat_inj.mp h)
  have htenth : (cost / 10).toNat = cost.toNat / 10 := rfl
  rw [Ne, ← UInt32.toNat_inj, UInt32.le_iff_toNat_le]
  simp only [isOp, decide_eq_true_eq] at hop
  rcases hop with rfl | rfl | rfl | rfl
  · show (cost - cost / 10).toNat ≠ 0 ↔ 1 ≤ cost.toNat
    rw [UInt32.toNat_sub_of_le _ _ (UInt32.le_iff_toNat_le.mpr (by omega)), htenth]
    omega
  · show cost.toNat / 10 ≠ 0 ↔ 10 ≤ cost.toNat
    omega
  · show cost.toNat / 100 ≠ 0 ↔ 100 ≤ cost.toNat
    omega
  · show cost.toNat / 1000 ≠ 0 ↔ 1000 ≤ cost.toNat
    omega

theorem derivedMin_le (op : UInt8) (cost : UInt32) : derivedMin op cost ≤ cost := by
  have htenth : (cost / 10).toNat = cost.toNat / 10 := rfl
  rw [UInt32.le_iff_toNat_le]
  unfold derivedMin
  split
  · rw [UInt32.toNat_sub_of_le _ _ (UInt32.le_iff_toNat_le.mpr (by omega))]
    omega
  · split
    · omega
    · split
      · show cost.toNat / 100 ≤ cost.toNat
        omega
      · split
        · show cost.toNat / 1000 ≤ cost.toNat
          omega
        · exact Nat.zero_le _

theorem pos_of_mem_blankNumbers {l : List UInt8} {c : UInt32} (h : c ∈ blankNumbers l) :
    c ≠ 0 := by
  rintro rfl
  have hlt := (List.mem_filter.mp h).2
  simp at hlt

theorem dflt_sane : (const COST_DEFAULT).Sane := const_sane (by decide)

/-- What the range or the short form gives, when the numbers are there. -/
theorem ranged_sane_iff {op : UInt8} (hop : isOp op = true) {cost : UInt32} (hcost : cost ≠ 0)
    (cost1 num val : UInt32) :
    let ranged := cost1 ≠ 0 ∧ cost < cost1
    let maxCost := if ranged then cost1 else cost
    let minCost := if ranged then cost else derivedMin op cost
    (if minCost = 0 ∨ maxCost = 0 then ⟨maxCost, minCost, ⟨0, 1⟩⟩
      else ⟨maxCost, minCost, ⟨num.toUInt16, val.toUInt16⟩⟩ : AdjCost).Sane ↔
      (cost < cost1 ∨ shortLeast op ≤ cost) ∧ num.toNat % 2 ^ 16 < val.toNat % 2 ^ 16 := by
  have hnarrow : ∀ n : UInt32, n.toUInt16.toNat = n.toNat % 2 ^ 16 := fun _ => rfl
  by_cases hrange : cost < cost1
  · have hcost1 : cost1 ≠ 0 := by
      rintro rfl
      exact UInt32.not_lt_zero hrange
    simp only [ne_eq, hcost1, not_false_eq_true, hrange, and_self, if_true, hcost, or_self,
      if_false, true_or, true_and]
    rw [sane_iff hcost (UInt32.le_of_lt hrange), hnarrow, hnarrow]
  · simp only [hrange, and_false, if_false, false_or, hcost, or_false]
    rw [← derivedMin_ne_zero_iff hop hcost]
    split
    · next hzero =>
        refine iff_of_false ?_ fun h => h.1 hzero
        intro h
        have hmin : 1 ≤ derivedMin op cost := h.min
        rw [hzero] at hmin
        exact absurd hmin (by decide)
    · next hmin =>
        rw [sane_iff hmin (derivedMin_le op cost), hnarrow, hnarrow]
        exact (and_iff_right hmin).symm

theorem finish_sane_iff {l : List UInt8} {s : ParseState} (h : Reads l s) :
    (finish s).1.Sane ↔ SaneNumbers l := by
  unfold finish SaneNumbers
  rw [h.op]
  cases hop : lastOp l with
  | none =>
    simp only [h.val, h.costArray]
    split
    · next hval =>
        split
        · next harray =>
            rw [setArray_sane_iff (by simp)]
            · simp [hval, harray]
            · intro c hc
              rcases List.mem_append.mp hc with hc | hc
              · exact pos_of_mem_blankNumbers hc
              · rwa [List.mem_singleton.mp hc]
        · next harray => exact iff_of_true (const_sane hval) fun _ h => absurd h harray
    · next hval => exact iff_of_true dflt_sane fun h => absurd h hval
  | some op =>
    have hisOp : isOp op = true := List.find?_some hop
    simp only [h.val, h.cost, h.cost1, h.num]
    split
    · next hcost => exact iff_of_true dflt_sane fun h => absurd hcost h
    · next hcost =>
        split
        · next hval =>
            refine iff_of_true dflt_sane fun _ hne hlt => ?_
            rcases hval with hval | hval
            · exact absurd hval hne
            · exact absurd hlt (UInt32.not_lt.mpr hval)
        · next hval =>
            rw [not_or, UInt32.not_le] at hval
            rw [apply_ite Prod.fst]
            apply (ranged_sane_iff hisOp hcost _ _ _).trans
            exact ⟨fun h _ _ _ => h, fun h => h hcost hval.1 hval.2⟩

/-- **The cost that `parse` leaves is sane exactly on the texts above**, whatever the status. -/
theorem parse_sane_iff (text : List UInt8) : (parse text).1.Sane ↔ SaneText text := by
  unfold parse SaneText
  rw [scan_eq]
  split
  · next hnone =>
      split at hnone
      · cases hnone
      · next hread => exact iff_of_true dflt_sane fun h => absurd h hread
  · next s hsome =>
      split at hsome
      · next hread =>
          cases hsome
          rw [finish_sane_iff (reads_foldl (line text))]
          exact ⟨fun h _ => h, fun h => h hread⟩
      · cases hsome

/-- `100_10_0/65536` is taken with no path, and `5_0/1`, that is refused, with a minimum of
zero. -/
theorem parse_no_path_and_no_cost :
    ¬ (∀ text : List UInt8, (parse text).1.Sane) ∧
      parse ("100_10_0/65536".toList.map fun c => UInt8.ofNat c.toNat) =
        (⟨100, 10, ⟨0, 0⟩⟩, .ok) ∧
      parse ("5_0/1".toList.map fun c => UInt8.ofNat c.toNat) = (⟨5, 0, ⟨0, 1⟩⟩, .badCost) := by
  refine ⟨fun h => ?_, by decide, by decide⟩
  exact absurd (h ("5_0/1".toList.map fun c => UInt8.ofNat c.toNat)) (by decide)

/-- A sane cost is taken on every path. -/
theorem Sane.get {c : AdjCost} (h : c.Sane) (p : UInt16) : 1 ≤ c.get p := by
  unfold AdjCost.get
  split
  · exact h.min
  · exact UInt32.le_trans h.min h.le

end AdjCost

end Raims
