import Raims.Graph.CostText

/-!
# A cost from an array of costs by path (`AdjCost::set( cost, count )`)

The loop looks for a cost that is below the next one, around the array. It ends on every
array, since costs that never go up around a cycle are all the same, and what it keeps is
one minimum at one path: all there is to say of an array with a single smaller cost, or
of two costs that alternate. The path and the number of paths are cut to 16 bits, so
longer arrays are told wrong, or not at all.
-/

namespace Raims

namespace AdjCost

/-! ## The loop -/

/-- The loop from `i`: none when it has not ended, or reads beyond the array. -/
def seek (costs : List UInt32) (count : ℕ) : ℕ → ℕ → Option AdjCost
  | 0, _ => none
  | fuel + 1, i => do
      let minCost ← costs[i]?
      let maxCost ← costs[(i + 1) % count]?
      if minCost < maxCost then
        some ⟨maxCost, minCost, ⟨UInt16.ofNat i, UInt16.ofNat count⟩⟩
      else seek costs count fuel (i + 1)

/-- `set( cost, count )` in so many rounds of its loop. -/
def set (fuel : ℕ) (costs : List UInt32) : Option AdjCost :=
  if costs.all (· = costs.headD 0) then some (const (costs.headD 0))
  else seek costs (cycle costs) fuel 0

/-- `operator[]`, that divides by the number of paths. -/
def at? (c : AdjCost) (p : UInt16) : Option UInt32 :=
  if c.path.count = 0 then none else some (c.get p)

theorem getElem?_of_lt {costs : List UInt32} {i : ℕ} (h : i < costs.length) :
    costs[i]? = some (costs.getD i 0) := by
  rw [getD_of_lt h, List.getElem?_eq_getElem h]

/-- The loop passes what does not go up and ends at what does. -/
theorem seek_eq {costs : List UInt32} {count k : ℕ} (hcount : 0 < count)
    (hle : count ≤ costs.length) (hk : k < count)
    (hup : costs.getD k 0 < costs.getD ((k + 1) % count) 0) {i : ℕ} (hi : i ≤ k)
    (hdown : ∀ j, i ≤ j → j < k → ¬ costs.getD j 0 < costs.getD ((j + 1) % count) 0)
    {fuel : ℕ} (hfuel : k - i < fuel) :
    seek costs count fuel i =
      some ⟨costs.getD ((k + 1) % count) 0, costs.getD k 0, ⟨UInt16.ofNat k, UInt16.ofNat count⟩⟩ := by
  induction fuel generalizing i with
  | zero => exact absurd hfuel (Nat.not_lt_zero _)
  | succ fuel ih =>
    have hcur : i < costs.length := by omega
    have hnext : (i + 1) % count < costs.length := (Nat.mod_lt _ hcount).trans_le hle
    rw [seek, getElem?_of_lt hcur, getElem?_of_lt hnext]
    show (if costs.getD i 0 < costs.getD ((i + 1) % count) 0 then _ else _) = _
    rcases Nat.eq_or_lt_of_le hi with rfl | hlt
    · rw [if_pos hup]
    · rw [if_neg (hdown i le_rfl hlt)]
      apply ih hlt
      · intro j hj
        exact hdown j (Nat.le_of_succ_le hj)
      · omega

/-- Nothing goes up before the first cost that does. -/
theorem not_up_of_lt_rise {costs : List UInt32} {j : ℕ} (hj : j < rise costs) :
    ¬ costs.getD j 0 < costs.getD ((j + 1) % cycle costs) 0 := by
  have hnot := List.not_of_lt_findIdx (p := fun i =>
    decide (costs.getD i 0 < costs.getD ((i + 1) % cycle costs) 0)) hj
  simpa using hnot

/-- **The loop ends** within a round for each cost. -/
theorem set_eq (costs : List UInt32) {fuel : ℕ} (hfuel : costs.length ≤ fuel) :
    set fuel costs = some (setArray costs) := by
  rw [set, setArray_eq]
  split
  · rfl
  · next hdiff =>
    obtain ⟨hlt, hup⟩ := rise_spec hdiff
    have hle := cycle_le costs
    apply seek_eq (Nat.zero_lt_of_lt hlt) hle hlt hup (Nat.zero_le _)
    · intro j _ hj
      exact not_up_of_lt_rise hj
    · omega

/-! ## The arrays that one minimum at one path can tell -/

/-- One cost on all paths, or a smaller cost on one of them, or two costs in turn on four. -/
inductive ByPath : List UInt32 → Prop
  | same (cost : UInt32) (n : ℕ) : ByPath (List.replicate n cost)
  | lower {lo hi : UInt32} {n i : ℕ} (hlt : lo < hi) (hi' : i < n) :
      ByPath ((List.replicate n hi).set i lo)
  | turns (a b : UInt32) : ByPath [a, b, a, b]

/-- The costs are the same, or are few enough for their number to be kept; or else what
remains of the number and of the path of the minimum finds that path and no other. -/
def PathsKept (costs : List UInt32) : Prop :=
  let num := rise costs % 2 ^ 16
  let count := costs.length % 2 ^ 16
  costs.all (· = costs.headD 0) = true ∨ costs.length < 2 ^ 16 ∨ count ≠ 0 ∧
    if rise costs < 2 ^ 16 then num < count ∧ 2 ^ 16 ≤ num + count else count ≤ num

/-- The paths below `m` that what remains of `i` and `n` finds. -/
theorem found_iff {m n i : ℕ} (hm : 0 < m) (hi : i < n) :
    (n % m ≠ 0 ∧ ∀ p < m, p % (n % m) = i % m ↔ p % n = i) ↔
      n < m ∨ n % m ≠ 0 ∧ if i < m then i % m < n % m ∧ m ≤ i % m + n % m else n % m ≤ i % m := by
  by_cases hn : n < m
  · rw [Nat.mod_eq_of_lt hn, Nat.mod_eq_of_lt (hi.trans hn)]
    exact iff_of_true ⟨Nat.ne_zero_of_lt hi, fun p _ => Iff.rfl⟩ (Or.inl hn)
  · rw [or_iff_right hn]
    apply and_congr_right
    intro hne
    have hsmall : ∀ p < m, p % n = p := fun p hp => Nat.mod_eq_of_lt (hp.trans_le (Nat.le_of_not_lt hn))
    split
    · next him =>
      rw [Nat.mod_eq_of_lt him]
      constructor
      · intro h
        have hlt : i < n % m := by
          rw [← (h i him).mpr (hsmall i him)]
          exact Nat.mod_lt _ (Nat.pos_of_ne_zero hne)
        refine ⟨hlt, Nat.le_of_not_lt fun hnext => ?_⟩
        have hagain := (h (i + n % m) hnext).mp (by rw [Nat.add_mod_right, Nat.mod_eq_of_lt hlt])
        rw [hsmall _ hnext] at hagain
        exact hne (Nat.add_eq_left.mp hagain)
      · rintro ⟨hlt, hle⟩ p hp
        rw [hsmall p hp]
        constructor
        · intro hmod
          have hdiv := Nat.div_add_mod p (n % m)
          rw [hmod] at hdiv
          have hquot : p / (n % m) = 0 := by
            by_contra hpos
            have hone : n % m * 1 ≤ n % m * (p / (n % m)) :=
              Nat.mul_le_mul_left _ (Nat.pos_of_ne_zero hpos)
            omega
          rw [hquot, Nat.mul_zero, Nat.zero_add] at hdiv
          exact hdiv.symm
        · rintro rfl
          exact Nat.mod_eq_of_lt hlt
    · next him =>
      constructor
      · intro h
        by_contra hlt
        rw [Nat.not_le] at hlt
        have hp : i % m < m := Nat.mod_lt _ hm
        have hfound := (h (i % m) hp).mp (Nat.mod_eq_of_lt hlt)
        rw [hsmall _ hp] at hfound
        exact him (hfound ▸ hp)
      · intro hle p hp
        rw [hsmall p hp]
        refine iff_of_false (fun hmod => ?_) fun heq => him (heq ▸ hp)
        have hlt := Nat.mod_lt p (Nat.pos_of_ne_zero hne)
        omega

section Lower

variable {lo hi : UInt32} {n i : ℕ}

theorem getElem?_lower {j : ℕ} (hj : j < n) :
    ((List.replicate n hi).set i lo)[j]? = some (if j = i then lo else hi) := by
  rw [List.getElem?_set]
  split
  · next h => simp [← h, h ▸ hj]
  · next h => simp [hj, Ne.symm h]

theorem getD_lower {j : ℕ} (hj : j < n) :
    ((List.replicate n hi).set i lo).getD j 0 = if j = i then lo else hi := by
  rw [List.getD_eq_getElem?_getD, getElem?_lower hj, Option.getD_some]

theorem lower_not_all (hlt : lo < hi) (hi' : i < n) (hn : 1 < n) :
    ¬ ((List.replicate n hi).set i lo).all
      (· = ((List.replicate n hi).set i lo).headD 0) = true := by
  intro hall
  rw [List.all_eq_true] at hall
  have heq : ∀ {j : ℕ}, j < n → (if j = i then lo else hi) =
      ((List.replicate n hi).set i lo).headD 0 := fun hj =>
    of_decide_eq_true (hall _ (List.mem_of_getElem? (getElem?_lower hj)))
  obtain ⟨j, hj, hne⟩ : ∃ j < n, j ≠ i := by
    by_cases h0 : i = 0
    · exact ⟨1, hn, h0 ▸ Nat.one_ne_zero⟩
    · exact ⟨0, Nat.zero_lt_of_lt hn, Ne.symm h0⟩
  have hlo := heq hi'
  have hhi := heq hj
  rw [if_pos rfl] at hlo
  rw [if_neg hne, ← hlo] at hhi
  rw [hhi] at hlt
  exact UInt32.lt_irrefl _ hlt

theorem cycle_lower (hlt : lo < hi) (hi' : i < n) : cycle ((List.replicate n hi).set i lo) = n := by
  have hlen : ((List.replicate n hi).set i lo).length = n := by simp
  unfold cycle
  rw [hlen]
  split
  · next hfour =>
    obtain ⟨rfl, h02, h13⟩ := hfour
    have hne : lo ≠ hi := fun h => UInt32.lt_irrefl _ (h ▸ hlt)
    rw [getElem?_lower (by decide), getElem?_lower (by decide), Option.some_inj] at h02 h13
    have hcases : i = 0 ∨ i = 1 ∨ i = 2 ∨ i = 3 := by omega
    rcases hcases with rfl | rfl | rfl | rfl
    · exact absurd h02 hne
    · exact absurd h13 hne
    · exact absurd h02.symm hne
    · exact absurd h13.symm hne
  · rfl

/-- The only cost below the next one is the smaller one. -/
theorem rise_lower (hlt : lo < hi) (hi' : i < n) (hn : 1 < n) :
    rise ((List.replicate n hi).set i lo) = i := by
  obtain ⟨hr, hup⟩ := rise_spec (lower_not_all hlt hi' hn)
  rw [cycle_lower hlt hi'] at hr hup
  by_contra hne
  rw [getD_lower hr, if_neg hne, getD_lower (Nat.mod_lt _ (Nat.zero_lt_of_lt hn))] at hup
  split at hup
  · exact UInt32.lt_asymm hlt hup
  · exact UInt32.lt_irrefl _ hup

theorem next_ne (hi' : i < n) (hn : 1 < n) : (i + 1) % n ≠ i := by
  rcases Nat.eq_or_lt_of_le (show i + 1 ≤ n from hi') with h | h
  · rw [h, Nat.mod_self]
    omega
  · rw [Nat.mod_eq_of_lt h]
    exact Nat.succ_ne_self i

theorem setArray_lower (hlt : lo < hi) (hi' : i < n) (hn : 1 < n) :
    setArray ((List.replicate n hi).set i lo) = ⟨hi, lo, ⟨UInt16.ofNat i, UInt16.ofNat n⟩⟩ := by
  rw [setArray_eq, if_neg (lower_not_all hlt hi' hn), rise_lower hlt hi' hn, cycle_lower hlt hi',
    getD_lower (Nat.mod_lt _ (Nat.zero_lt_of_lt hn)), if_neg (next_ne hi' hn), getD_lower hi',
    if_pos rfl]

/-- The cost of a path is the minimum when what is kept finds the path. -/
theorem at?_lower_iff (hlt : lo < hi) {n i : ℕ} (p : UInt16) (b : Bool) :
    (⟨hi, lo, ⟨UInt16.ofNat i, UInt16.ofNat n⟩⟩ : AdjCost).at? p = some (if b then lo else hi) ↔
      n % 2 ^ 16 ≠ 0 ∧ (p.toNat % (n % 2 ^ 16) = i % 2 ^ 16 ↔ b = true) := by
  have hcount : UInt16.ofNat n = 0 ↔ n % 2 ^ 16 = 0 := by
    rw [← UInt16.toNat_inj, UInt16.toNat_ofNat']
    rfl
  have hfinds : p % UInt16.ofNat n = UInt16.ofNat i ↔ p.toNat % (n % 2 ^ 16) = i % 2 ^ 16 := by
    rw [← UInt16.toNat_inj, UInt16.toNat_mod, UInt16.toNat_ofNat', UInt16.toNat_ofNat']
  have hne : lo ≠ hi := fun h => UInt32.lt_irrefl _ (h ▸ hlt)
  unfold at? get
  simp only [hcount, hfinds]
  split
  · next hzero => exact iff_of_false nofun fun h => h.1 hzero
  · next hzero =>
    rw [Option.some_inj, and_iff_right hzero]
    by_cases h : p.toNat % (n % 2 ^ 16) = i % 2 ^ 16
    · rw [if_pos h]
      cases b with
      | false => exact iff_of_false hne fun hiff => Bool.false_ne_true (hiff.mp h)
      | true => exact iff_of_true rfl (iff_of_true h rfl)
    · rw [if_neg h]
      cases b with
      | false => exact iff_of_true rfl (iff_of_false h Bool.false_ne_true)
      | true => exact iff_of_false hne.symm fun hiff => h (hiff.mpr rfl)

end Lower

/-- Paths are numbers of 16 bits. -/
theorem forall_path_iff {P : ℕ → Prop} : (∀ p : UInt16, P p.toNat) ↔ ∀ p < 2 ^ 16, P p := by
  constructor
  · intro h p hp
    have hnat : (UInt16.ofNat p).toNat = p := by
      rw [UInt16.toNat_ofNat']
      exact Nat.mod_eq_of_lt hp
    exact hnat ▸ h (UInt16.ofNat p)
  · intro h p
    exact h p.toNat p.toNat_lt

theorem get_same {costs : List UInt32} (hne : costs ≠ [])
    (hall : costs.all (· = costs.headD 0) = true) (p : UInt16) :
    (setArray costs).at? p = costs[p.toNat % costs.length]? := by
  have hlt : p.toNat % costs.length < costs.length :=
    Nat.mod_lt _ (List.length_pos_iff.mpr hne)
  have hget := of_decide_eq_true (List.all_eq_true.mp hall _ (List.getElem_mem hlt))
  rw [setArray_eq, if_pos hall, List.getElem?_eq_getElem hlt, hget]
  simp [at?, const, get]

theorem get_lower_iff {lo hi : UInt32} {n i : ℕ} (hlt : lo < hi) (hi' : i < n) (hn : 1 < n) :
    (∀ p : UInt16, (setArray ((List.replicate n hi).set i lo)).at? p =
      ((List.replicate n hi).set i lo)[p.toNat % n]?) ↔
        PathsKept ((List.replicate n hi).set i lo) := by
  have hlen : ((List.replicate n hi).set i lo).length = n := by simp
  have hone : ∀ p : UInt16, (setArray ((List.replicate n hi).set i lo)).at? p =
      ((List.replicate n hi).set i lo)[p.toNat % n]? ↔
        n % 2 ^ 16 ≠ 0 ∧ (p.toNat % (n % 2 ^ 16) = i % 2 ^ 16 ↔ p.toNat % n = i) := by
    intro p
    have hb := at?_lower_iff hlt (n := n) (i := i) p (decide (p.toNat % n = i))
    simp only [decide_eq_true_eq] at hb
    rw [setArray_lower hlt hi' hn, getElem?_lower (Nat.mod_lt _ (Nat.zero_lt_of_lt hi'))]
    exact hb
  rw [forall_congr' hone, forall_and, forall_const,
    forall_path_iff (P := fun p => p % (n % 2 ^ 16) = i % 2 ^ 16 ↔ p % n = i),
    found_iff (by decide) hi']
  unfold PathsKept
  rw [hlen, rise_lower hlt hi' hn]
  exact (or_iff_right (lower_not_all hlt hi' hn)).symm

theorem setArray_turns {a b : UInt32} (h : a ≠ b) :
    setArray [a, b, a, b] = if a < b then ⟨b, a, ⟨0, 2⟩⟩ else ⟨a, b, ⟨1, 2⟩⟩ := by
  have hdiff : ¬ [a, b, a, b].all (· = [a, b, a, b].headD 0) = true := by simp [h.symm]
  have hcycle : cycle [a, b, a, b] = 2 := by simp [cycle]
  have hrise : rise [a, b, a, b] = if a < b then 0 else 1 := by
    obtain ⟨hlt, hup⟩ := rise_spec hdiff
    rw [hcycle] at hlt hup
    have hcases : rise [a, b, a, b] = 0 ∨ rise [a, b, a, b] = 1 := by omega
    rcases hcases with h0 | h1
    · rw [h0] at hup
      rw [h0, if_pos (show a < b from hup)]
    · rw [h1] at hup
      rw [h1, if_neg (UInt32.lt_asymm (show b < a from hup))]
  rw [setArray_eq, if_neg hdiff, hrise, hcycle]
  split <;> rfl

/-- The path `0/2` or `1/2` of the smaller of two costs, for the four paths. -/
theorem get_turns {a b : UInt32} (h : a ≠ b) (p : UInt16) :
    (setArray [a, b, a, b]).at? p = [a, b, a, b][p.toNat % 4]? := by
  have htwo : (p % 2).toNat = p.toNat % 2 := UInt16.toNat_mod p 2
  have heven : p % 2 = 0 ↔ p.toNat % 2 = 0 := by
    rw [← htwo]
    exact UInt16.toNat_inj.symm
  have hodd : p % 2 = 1 ↔ p.toNat % 2 = 1 := by
    rw [← htwo]
    exact UInt16.toNat_inj.symm
  have hget : (setArray [a, b, a, b]).at? p = some (if p.toNat % 2 = 0 then a else b) := by
    rw [setArray_turns h]
    split
    · simp only [at?, get, heven]
      rfl
    · simp only [at?, get, hodd]
      rcases Nat.mod_two_eq_zero_or_one p.toNat with hp | hp
      · simp [hp]
      · simp [hp]
  rw [hget]
  have hcases : p.toNat % 4 = 0 ∨ p.toNat % 4 = 1 ∨ p.toNat % 4 = 2 ∨ p.toNat % 4 = 3 := by omega
  rcases hcases with hp | hp | hp | hp
  · rw [hp, if_pos (by omega)]
    rfl
  · rw [hp, if_neg (by omega)]
    rfl
  · rw [hp, if_pos (by omega)]
    rfl
  · rw [hp, if_neg (by omega)]
    rfl

/-- **The loop ends on every array**, and the cost that it finds is that of the array on every
path of the arrays above whose paths are kept. -/
theorem setArray_get_iff (costs : List UInt32) (hne : costs ≠ []) :
    (∀ fuel, costs.length ≤ fuel → set fuel costs = some (setArray costs)) ∧
      (ByPath costs →
        ((∀ p : UInt16, (setArray costs).at? p = costs[p.toNat % costs.length]?) ↔
          PathsKept costs)) := by
  refine ⟨fun fuel hfuel => set_eq costs hfuel, fun h => ?_⟩
  by_cases hall : costs.all (· = costs.headD 0) = true
  · exact iff_of_true (get_same hne hall) (Or.inl hall)
  · cases h with
    | same cost n =>
      refine absurd ?_ hall
      cases n with
      | zero => simp
      | succ n => simp [List.replicate_succ]
    | @lower lo hi n i hlt hi' =>
      have hn : 1 < n := by
        by_contra hone
        have hn : n = 1 := by omega
        have hi0 : i = 0 := by omega
        subst hn hi0
        exact hall (by simp)
      rw [List.length_set, List.length_replicate]
      exact get_lower_iff hlt hi' hn
    | turns a b =>
      have hab : a ≠ b := by
        rintro rfl
        exact hall (by simp)
      exact iff_of_true (get_turns hab) (Or.inr (Or.inl (show 4 < 2 ^ 16 by decide)))

/-- The costs `3 1 3`. -/
theorem setArray_get_iff_three :
    [(3 : UInt32), 1, 3] ≠ [] ∧ ByPath [3, 1, 3] ∧
      ∀ p : UInt16, (setArray [3, 1, 3]).at? p = [3, 1, 3][p.toNat % 3]? := by
  have hby : ByPath [3, 1, 3] := .lower (show (1 : UInt32) < 3 by decide) (show 1 < 3 by decide)
  exact ⟨by decide, hby,
    ((setArray_get_iff [3, 1, 3] (by decide)).2 hby).mpr (Or.inr (Or.inl (by decide)))⟩

/-- Of 65536 costs, one of them smaller, the number of paths is kept as zero, and no path has
a cost. -/
theorem many_costs_lose_count :
    ¬ (∀ costs : List UInt32, costs ≠ [] → ByPath costs →
        ∀ p : UInt16, (setArray costs).at? p = costs[p.toNat % costs.length]?) ∧
      setArray ((List.replicate (2 ^ 16) 2).set 5 1) = ⟨2, 1, ⟨5, 0⟩⟩ ∧
      (⟨2, 1, ⟨5, 0⟩⟩ : AdjCost).at? 0 = none := by
  have hset : setArray ((List.replicate (2 ^ 16) 2).set 5 1) = ⟨2, 1, ⟨5, 0⟩⟩ :=
    setArray_lower (by decide) (by decide) (by decide)
  refine ⟨fun h => ?_, hset, by decide⟩
  have hne : (List.replicate (2 ^ 16) (2 : UInt32)).set 5 1 ≠ [] := by
    rw [Ne, ← List.length_eq_zero_iff, List.length_set, List.length_replicate]
    decide
  have hget := h _ hne (.lower (by decide) (by decide)) 0
  rw [hset, List.length_set, List.length_replicate, getElem?_lower (by decide)] at hget
  cases hget

end AdjCost

end Raims
