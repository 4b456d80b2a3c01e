import Raims.Graph.AdjGraph
import Mathlib.Algebra.BigOperators.Fin
import Mathlib.Algebra.Order.BigOperators.Group.Finset
import Mathlib.Algebra.Ring.Nat
import Mathlib.Data.Nat.GCD.Basic

/-!
# The least common multiple of path counts (`LCM::add`)

Each value that is added has a running multiple, and the loop steps the least of them,
the first if several are. It ends when the first running multiple is the least and the
last one equals it: what lies between is not looked at, so it ends at the least common
multiple of the first value and of the one added, and the values between are only kept
from lagging behind.
-/

namespace Raims

namespace LCM

/-! ## The first of the least -/

/-- `j` is the first index of the least of the values before `i`. -/
def FirstLeast (tmp : List UInt32) (i j : ℕ) : Prop :=
  j < i ∧ (∀ k < i, tmp.getD j 0 ≤ tmp.getD k 0) ∧ ∀ k < j, tmp.getD j 0 < tmp.getD k 0

theorem FirstLeast.next {tmp : List UInt32} {i j : ℕ} (h : FirstLeast tmp i j) :
    FirstLeast tmp (i + 1) (if tmp.getD i 0 < tmp.getD j 0 then i else j) := by
  obtain ⟨hj, hle, hlt⟩ := h
  split
  · next hless =>
    refine ⟨Nat.lt_succ_self i, fun k hk => ?_, fun k hk => ?_⟩
    · rcases Nat.eq_or_lt_of_le (Nat.le_of_lt_succ hk) with rfl | hk
      · exact UInt32.le_refl _
      · exact UInt32.le_of_lt (UInt32.lt_of_lt_of_le hless (hle k hk))
    · exact UInt32.lt_of_lt_of_le hless (hle k hk)
  · next hless =>
    refine ⟨Nat.lt_succ_of_lt hj, fun k hk => ?_, hlt⟩
    rcases Nat.eq_or_lt_of_le (Nat.le_of_lt_succ hk) with rfl | hk
    · exact UInt32.not_lt.mp hless
    · exact hle k hk

theorem smallest_spec {tmp : List UInt32} {i j : ℕ} (hi : i ≤ tmp.length)
    (h : FirstLeast tmp i j) :
    FirstLeast tmp tmp.length (smallest (tmp.drop i) i j (tmp.getD j 0)) := by
  induction hn : tmp.length - i generalizing i j with
  | zero =>
    have hend : i = tmp.length := by omega
    subst hend
    rw [List.drop_length]
    exact h
  | succ n ih =>
    have hlt : i < tmp.length := by omega
    have hget : tmp[i] = tmp.getD i 0 := by simp [hlt]
    rw [List.drop_eq_getElem_cons hlt, smallest, hget]
    have hnext := ih hlt h.next (by omega)
    split
    · next hless =>
      rw [if_pos hless] at hnext
      exact hnext
    · next hless =>
      rw [if_neg hless] at hnext
      exact hnext

/-- The index that a round of the loop steps. -/
def least (tmp : List UInt32) : ℕ := smallest tmp.tail 1 0 (tmp.headD 0)

theorem least_spec {tmp : List UInt32} (h : tmp ≠ []) :
    FirstLeast tmp tmp.length (least tmp) := by
  have hlen := List.length_pos_iff.mpr h
  have hstart : FirstLeast tmp 1 0 := by
    refine ⟨Nat.one_pos, fun k hk => ?_, fun k hk => absurd hk (Nat.not_lt_zero k)⟩
    rw [Nat.lt_one_iff.mp hk]
    exact UInt32.le_refl _
  have hspec := smallest_spec hlen hstart
  rw [List.drop_one] at hspec
  have hhead : tmp.headD 0 = tmp.getD 0 0 := by cases tmp <;> rfl
  rw [least, hhead]
  exact hspec

/-! ## The running multiples -/

/-- The least multiple of the first value and of the last. -/
def ends (vals : List UInt32) : ℕ := Nat.lcm (vals.headD 0).toNat (vals.getLastD 0).toNat

/-- The values are at least two and not zero, and no multiple that is stepped below the common
one of the ends wraps. -/
structure Room (vals : List UInt32) : Prop where
  two : 1 < vals.length
  pos : ∀ v ∈ vals, v ≠ 0
  step : ∀ v ∈ vals, ∀ t, v.toNat ∣ t → t < ends vals → t + v.toNat < 2 ^ 32

/-- What the loop keeps: the ends do not pass their common multiple. -/
structure Running (vals tmp : List UInt32) : Prop where
  length : tmp.length = vals.length
  dvd : ∀ i, (vals.getD i 0).toNat ∣ (tmp.getD i 0).toNat
  pos : 0 < (tmp.getD 0 0).toNat
  first : (tmp.getD 0 0).toNat ≤ ends vals
  last : (tmp.getD (vals.length - 1) 0).toNat ≤ ends vals

/-- How far the running multiples are from the common one. -/
def left (vals tmp : List UInt32) : ℕ :=
  ∑ i ∈ Finset.range vals.length, (ends vals - (tmp.getD i 0).toNat)

theorem headD_eq_getD (tmp : List UInt32) : tmp.headD 0 = tmp.getD 0 0 := by
  cases tmp <;> rfl

theorem getLastD_eq_getD (tmp : List UInt32) :
    tmp.getLastD 0 = tmp.getD (tmp.length - 1) 0 := by
  rw [List.getLastD_eq_getLast?, List.getLast?_eq_getElem?, List.getD_eq_getElem?_getD]

theorem getD_mem {vals : List UInt32} {i : ℕ} (hi : i < vals.length) : vals.getD i 0 ∈ vals := by
  have hget : vals.getD i 0 = vals[i] := by simp [hi]
  rw [hget]
  exact List.getElem_mem hi

theorem first_dvd_ends (vals : List UInt32) : (vals.getD 0 0).toNat ∣ ends vals := by
  rw [ends, headD_eq_getD]
  exact Nat.dvd_lcm_left _ _

theorem last_dvd_ends (vals : List UInt32) :
    (vals.getD (vals.length - 1) 0).toNat ∣ ends vals := by
  rw [ends, getLastD_eq_getD]
  exact Nat.dvd_lcm_right _ _

/-- A multiple below another one is a step below it. -/
theorem add_le_of_dvd {a t m : ℕ} (ht : a ∣ t) (hm : a ∣ m) (hlt : t < m) : t + a ≤ m := by
  have hsub : a ∣ m - t := Nat.dvd_sub hm ht
  have hle := Nat.le_of_dvd (Nat.sub_pos_of_lt hlt) hsub
  omega

namespace Room

variable {vals : List UInt32} (h : Room vals)

include h

theorem pos_toNat {i : ℕ} (hi : i < vals.length) : 0 < (vals.getD i 0).toNat :=
  Nat.pos_of_ne_zero fun h0 => h.pos _ (getD_mem hi) (UInt32.toNat_inj.mp h0)

theorem ends_pos : 0 < ends vals := by
  rw [ends, headD_eq_getD, getLastD_eq_getD]
  exact Nat.lcm_pos (h.pos_toNat (Nat.lt_of_succ_lt h.two))
    (h.pos_toNat (Nat.sub_lt (Nat.lt_of_succ_lt h.two) Nat.one_pos))

theorem ends_lt : ends vals < 2 ^ 32 := by
  have hfirst : 0 < vals.length := Nat.lt_of_succ_lt h.two
  have hle := Nat.le_of_dvd h.ends_pos (first_dvd_ends vals)
  have hstep := h.step _ (getD_mem hfirst) (ends vals - (vals.getD 0 0).toNat)
    (Nat.dvd_sub (first_dvd_ends vals) (Nat.dvd_refl _)) (Nat.sub_lt h.ends_pos (h.pos_toNat hfirst))
  omega

theorem start : Running vals vals where
  length := rfl
  dvd _ := Nat.dvd_refl _
  pos := h.pos_toNat (Nat.lt_of_succ_lt h.two)
  first := Nat.le_of_dvd h.ends_pos (first_dvd_ends vals)
  last := Nat.le_of_dvd h.ends_pos (last_dvd_ends vals)

end Room

theorem search_succ (vals : List UInt32) (fuel : ℕ) (tmp : List UInt32) :
    search vals (fuel + 1) tmp =
      if least tmp = 0 ∧ tmp.headD 0 = tmp.getLastD 0 then some (tmp.headD 0)
      else search vals fuel (tmp.modify (least tmp) (· + vals.getD (least tmp) 0)) := rfl

theorem getD_modify (tmp : List UInt32) (f : UInt32 → UInt32) {i j : ℕ} (hi : i < tmp.length) :
    (tmp.modify j f).getD i 0 = if j = i then f (tmp.getD i 0) else tmp.getD i 0 := by
  rw [List.getD_eq_getElem?_getD, List.getD_eq_getElem?_getD, List.getElem?_modify,
    List.getElem?_eq_getElem hi]
  split <;> rfl

namespace Running

variable {vals tmp : List UInt32} (hroom : Room vals) (h : Running vals tmp)

include hroom h

theorem nonempty : tmp ≠ [] := by
  rw [← List.length_pos_iff, h.length]
  exact Nat.lt_of_succ_lt hroom.two

theorem least_lt : least tmp < vals.length := h.length ▸ (least_spec (h.nonempty hroom)).1

omit hroom in
/-- The loop ends at the common multiple of the ends. -/
theorem ends_at (hstop : least tmp = 0 ∧ tmp.headD 0 = tmp.getLastD 0) :
    (tmp.headD 0).toNat = ends vals := by
  have hlast : (vals.getD (vals.length - 1) 0).toNat ∣ (tmp.headD 0).toNat := by
    rw [hstop.2, getLastD_eq_getD, h.length]
    exact h.dvd _
  have hfirst : (vals.getD 0 0).toNat ∣ (tmp.headD 0).toNat := by
    rw [headD_eq_getD]
    exact h.dvd 0
  have hle : (tmp.headD 0).toNat ≤ ends vals := by
    rw [headD_eq_getD]
    exact h.first
  have hpos : 0 < (tmp.headD 0).toNat := by
    rw [headD_eq_getD]
    exact h.pos
  apply Nat.le_antisymm hle
  apply Nat.le_of_dvd hpos
  rw [ends, headD_eq_getD, getLastD_eq_getD]
  exact Nat.lcm_dvd hfirst hlast

/-- What is stepped is below the common multiple of the ends. -/
theorem least_below (hgo : ¬ (least tmp = 0 ∧ tmp.headD 0 = tmp.getLastD 0)) :
    (tmp.getD (least tmp) 0).toNat < ends vals := by
  obtain ⟨-, hle, hlt⟩ := least_spec (h.nonempty hroom)
  by_cases h0 : least tmp = 0
  · have hne : tmp.getD 0 0 ≠ tmp.getD (vals.length - 1) 0 := by
      rw [← h.length, ← headD_eq_getD, ← getLastD_eq_getD]
      exact fun heq => hgo ⟨h0, heq⟩
    have hlast : vals.length - 1 < tmp.length := by
      rw [h.length]
      exact Nat.sub_lt (Nat.lt_of_succ_lt hroom.two) Nat.one_pos
    have hle' := UInt32.le_iff_toNat_le.mp (hle _ hlast)
    rw [h0] at hle' ⊢
    refine lt_of_lt_of_le (lt_of_le_of_ne hle' fun heq => hne ?_) h.last
    exact UInt32.toNat_inj.mp heq
  · have hfirst := UInt32.lt_iff_toNat_lt.mp (hlt 0 (Nat.pos_of_ne_zero h0))
    exact lt_of_lt_of_le hfirst h.first

/-- The running multiple that is stepped does not wrap. -/
theorem toNat_step (hgo : ¬ (least tmp = 0 ∧ tmp.headD 0 = tmp.getLastD 0)) :
    (tmp.getD (least tmp) 0 + vals.getD (least tmp) 0).toNat =
      (tmp.getD (least tmp) 0).toNat + (vals.getD (least tmp) 0).toNat := by
  rw [UInt32.toNat_add]
  exact Nat.mod_eq_of_lt (hroom.step _ (getD_mem (h.least_lt hroom)) _ (h.dvd _)
    (h.least_below hroom hgo))

theorem step (hgo : ¬ (least tmp = 0 ∧ tmp.headD 0 = tmp.getLastD 0)) :
    Running vals (tmp.modify (least tmp) (· + vals.getD (least tmp) 0)) := by
  have hbelow := h.least_below hroom hgo
  have hadd := h.toNat_step hroom hgo
  have hzero : 0 < tmp.length := List.length_pos_iff.mpr (h.nonempty hroom)
  have hlast : vals.length - 1 < tmp.length := by
    rw [h.length]
    exact Nat.sub_lt (Nat.lt_of_succ_lt hroom.two) Nat.one_pos
  constructor
  · rw [List.length_modify, h.length]
  · intro i
    by_cases hi : i < tmp.length
    · rw [getD_modify tmp _ hi]
      split
      · next heq =>
        subst heq
        rw [hadd]
        exact Nat.dvd_add (h.dvd _) (Nat.dvd_refl _)
      · exact h.dvd i
    · have hnone : (tmp.modify (least tmp) (· + vals.getD (least tmp) 0)).getD i 0 = 0 := by
        rw [List.getD_eq_getElem?_getD, List.getElem?_eq_none (by simpa using hi)]
        rfl
      rw [hnone]
      exact Nat.dvd_zero _
  · rw [getD_modify tmp _ hzero]
    split
    · next heq =>
      rw [← heq, hadd, heq]
      exact Nat.add_pos_left h.pos _
    · exact h.pos
  · rw [getD_modify tmp _ hzero]
    split
    · next heq =>
      rw [← heq, hadd, heq]
      rw [heq] at hbelow
      exact add_le_of_dvd (h.dvd 0) (first_dvd_ends vals) hbelow
    · exact h.first
  · rw [getD_modify tmp _ hlast]
    split
    · next heq =>
      rw [← heq, hadd, heq]
      rw [heq] at hbelow
      exact add_le_of_dvd (h.dvd _) (last_dvd_ends vals) hbelow
    · exact h.last

theorem left_step (hgo : ¬ (least tmp = 0 ∧ tmp.headD 0 = tmp.getLastD 0)) :
    left vals (tmp.modify (least tmp) (· + vals.getD (least tmp) 0)) < left vals tmp := by
  have hj := h.least_lt hroom
  have hbelow := h.least_below hroom hgo
  have hpos := hroom.pos_toNat hj
  unfold left
  apply Finset.sum_lt_sum
  · intro i hi
    rw [getD_modify tmp _ (h.length ▸ Finset.mem_range.mp hi)]
    split
    · next heq =>
      subst heq
      rw [h.toNat_step hroom hgo]
      omega
    · exact Nat.le_refl _
  · refine ⟨least tmp, Finset.mem_range.mpr hj, ?_⟩
    rw [getD_modify tmp _ (h.length ▸ hj), if_pos rfl, h.toNat_step hroom hgo]
    omega

end Running

/-- **The loop ends, at the common multiple of the first value and the last.** -/
theorem search_eq {vals : List UInt32} (hroom : Room vals) {tmp : List UInt32}
    (h : Running vals tmp) {fuel : ℕ} (hfuel : left vals tmp < fuel) :
    search vals fuel tmp = some (UInt32.ofNat (ends vals)) := by
  induction fuel generalizing tmp with
  | zero => exact absurd hfuel (Nat.not_lt_zero _)
  | succ fuel ih =>
    rw [search_succ]
    split
    · next hstop => rw [← h.ends_at hstop, UInt32.ofNat_toNat]
    · next hgo =>
      apply ih (h.step hroom hgo)
      exact lt_of_lt_of_le (h.left_step hroom hgo) (Nat.le_of_lt_succ hfuel)

theorem left_lt {vals : List UInt32} (hroom : Room vals) : left vals vals < vals.length * 2 ^ 32 := by
  calc left vals vals
      ≤ ∑ _i ∈ Finset.range vals.length, ends vals :=
        Finset.sum_le_sum fun _ _ => Nat.sub_le _ _
    _ = vals.length * ends vals := by rw [Finset.sum_const, Finset.card_range, smul_eq_mul]
    _ < vals.length * 2 ^ 32 :=
        Nat.mul_lt_mul_of_pos_left hroom.ends_lt (Nat.lt_of_succ_lt hroom.two)

/-! ## The calls -/

/-- `add` in so many rounds of its loop; none when it has not ended. -/
def addSteps (fuel : ℕ) (l : LCM) (x : UInt32) : Option LCM :=
  if l.vals = [] then some ⟨[x], x⟩
  else if x ≤ l.val ∧ l.val % x = 0 then some l
  else (search (l.vals ++ [x]) fuel (l.vals ++ [x])).map fun val => ⟨l.vals ++ [x], val⟩

/-- What `add` does with a value that its result so far does not cover. -/
theorem add_pushed {l : LCM} {x : UInt32} (hne : l.vals ≠ [])
    (hnot : ¬ (x ≤ l.val ∧ l.val % x = 0)) (hroom : Room (l.vals ++ [x])) :
    l.add x = ⟨l.vals ++ [x], UInt32.ofNat (ends (l.vals ++ [x]))⟩ := by
  rw [add, if_neg hne, if_neg hnot]
  simp only
  rw [search_eq hroom hroom.start (left_lt hroom)]
  rfl

theorem addSteps_eq {l : LCM} {x : UInt32} (hroom : l.vals ≠ [] → Room (l.vals ++ [x])) {fuel : ℕ}
    (hfuel : (l.vals.length + 1) * 2 ^ 32 ≤ fuel) : addSteps fuel l x = some (l.add x) := by
  unfold addSteps
  by_cases hne : l.vals = []
  · rw [if_pos hne, add, if_pos hne]
  · by_cases hnot : x ≤ l.val ∧ l.val % x = 0
    · rw [if_neg hne, if_pos hnot, add, if_neg hne, if_pos hnot]
    · have hroom := hroom hne
      have hleft := left_lt hroom
      rw [List.length_append, List.length_singleton] at hleft
      rw [if_neg hne, if_neg hnot, add_pushed hne hnot hroom,
        search_eq hroom hroom.start (lt_of_lt_of_le hleft hfuel)]
      rfl

/-- The values added. -/
def of (xs : List UInt32) : LCM := xs.foldl add empty

/-- The least common multiple of the values. -/
def lcmOf (xs : List UInt32) : ℕ := xs.foldl (fun m x => Nat.lcm m x.toNat) 1

theorem of_concat (xs : List UInt32) (x : UInt32) : of (xs ++ [x]) = (of xs).add x :=
  List.foldl_concat ..

theorem lcmOf_concat (xs : List UInt32) (x : UInt32) :
    lcmOf (xs ++ [x]) = Nat.lcm (lcmOf xs) x.toNat := List.foldl_concat ..

theorem lcmOf_dvd_iff {xs : List UInt32} {m : ℕ} : lcmOf xs ∣ m ↔ ∀ x ∈ xs, x.toNat ∣ m := by
  induction xs using List.reverseRecOn with
  | nil => simp [lcmOf]
  | append_singleton xs x ih => simp [lcmOf_concat, Nat.lcm_dvd_iff, ih, or_imp, forall_and]

theorem lcmOf_pos {xs : List UInt32} (h : ∀ x ∈ xs, x ≠ 0) : 0 < lcmOf xs := by
  induction xs using List.reverseRecOn with
  | nil => exact Nat.one_pos
  | append_singleton xs x ih =>
    have hx : x.toNat ≠ 0 := fun h0 => h x (by simp) (UInt32.toNat_inj.mp h0)
    rw [lcmOf_concat]
    exact Nat.lcm_pos (ih fun y hy => h y (by simp [hy])) (Nat.pos_of_ne_zero hx)

theorem dvd_lcmOf {xs : List UInt32} {x : UInt32} (h : x ∈ xs) : x.toNat ∣ lcmOf xs :=
  lcmOf_dvd_iff.mp (Nat.dvd_refl _) x h

theorem lcmOf_dvd_of_isPrefix {xs ys : List UInt32} (h : xs <+: ys) : lcmOf xs ∣ lcmOf ys :=
  lcmOf_dvd_iff.mpr fun _ hx => dvd_lcmOf (h.subset hx)

/-- What is kept of the values that are added. -/
structure Keeps (xs : List UInt32) (l : LCM) : Prop where
  subset : ∀ v ∈ l.vals, v ∈ xs
  head : l.vals.head? = xs.head?

theorem keeps_of (xs : List UInt32) : Keeps xs (of xs) := by
  induction xs using List.reverseRecOn with
  | nil => exact ⟨fun v h => h, rfl⟩
  | append_singleton xs x ih =>
    rw [of_concat, add]
    by_cases hnil : (of xs).vals = []
    · have hxs : xs = [] := by
        rw [← List.head?_eq_none_iff, ← ih.head, hnil]
        rfl
      rw [if_pos hnil, hxs]
      exact ⟨fun v h => h, rfl⟩
    · have hxs : xs ≠ [] := by
        rintro rfl
        exact hnil rfl
      rw [if_neg hnil]
      split
      · refine ⟨fun v h => List.mem_append_left _ (ih.subset v h), ?_⟩
        rw [ih.head, List.head?_append_of_ne_nil _ hxs]
      · refine ⟨fun v h => ?_, ?_⟩
        · rcases List.mem_append.mp h with h | h
          · exact List.mem_append_left _ (ih.subset v h)
          · exact List.mem_append_right _ h
        · rw [List.head?_append_of_ne_nil _ hnil, ih.head, List.head?_append_of_ne_nil _ hxs]

theorem vals_of_eq_nil_iff {xs : List UInt32} : (of xs).vals = [] ↔ xs = [] := by
  rw [← List.head?_eq_none_iff, (keeps_of xs).head, List.head?_eq_none_iff]

theorem ends_of {xs : List UInt32} (hne : xs ≠ []) (x : UInt32) :
    ends ((of xs).vals ++ [x]) = Nat.lcm (xs.headD 0).toNat x.toNat := by
  have hvals : (of xs).vals ≠ [] := fun h => hne (vals_of_eq_nil_iff.mp h)
  rw [ends, List.headD_eq_head?_getD, List.head?_append_of_ne_nil _ hvals, (keeps_of xs).head,
    ← List.headD_eq_head?_getD, List.getLastD_concat]

theorem headD_mem {xs : List UInt32} (hne : xs ≠ []) : xs.headD 0 ∈ xs := by
  rw [List.headD_eq_head?_getD, List.head?_eq_some_head hne]
  exact List.head_mem hne

/-- A least common multiple that fits leaves room for every step below it. -/
theorem room_of {xs : List UInt32} {x : UInt32} (hpos : ∀ y ∈ xs ++ [x], y ≠ 0)
    (hfit : lcmOf (xs ++ [x]) < 2 ^ 32) (hne : xs ≠ []) : Room ((of xs).vals ++ [x]) := by
  have hmem : ∀ v ∈ (of xs).vals ++ [x], v ∈ xs ++ [x] := by
    intro v hv
    rcases List.mem_append.mp hv with hv | hv
    · exact List.mem_append_left _ ((keeps_of xs).subset v hv)
    · exact List.mem_append_right _ hv
  constructor
  · rw [List.length_append, List.length_singleton, Nat.lt_add_left_iff_pos, List.length_pos_iff]
    exact fun h => hne (vals_of_eq_nil_iff.mp h)
  · intro v hv
    exact hpos v (hmem v hv)
  · intro v hv t hdvd hlt
    have hends : ends ((of xs).vals ++ [x]) ≤ lcmOf (xs ++ [x]) := by
      rw [ends_of hne]
      exact Nat.le_of_dvd (lcmOf_pos hpos) (Nat.lcm_dvd
        (dvd_lcmOf (List.mem_append_left _ (headD_mem hne))) (dvd_lcmOf (by simp)))
    have hle := add_le_of_dvd hdvd (dvd_lcmOf (hmem v hv)) (lt_of_lt_of_le hlt hends)
    exact lt_of_le_of_lt hle hfit

/-- The value adds nothing to those before it, or makes up for all of them with the first. -/
def FirstSuffices (pre : List UInt32) (x : UInt32) : Prop :=
  pre = [] ∨ x.toNat ∣ lcmOf pre ∨ lcmOf pre ∣ Nat.lcm (pre.headD 0).toNat x.toNat

theorem lcm_first_eq_iff {pre : List UInt32} (hne : pre ≠ []) (x : UInt32) :
    Nat.lcm (pre.headD 0).toNat x.toNat = lcmOf (pre ++ [x]) ↔
      lcmOf pre ∣ Nat.lcm (pre.headD 0).toNat x.toNat := by
  rw [lcmOf_concat]
  constructor
  · intro heq
    rw [heq]
    exact Nat.dvd_lcm_left _ _
  · intro hdvd
    apply Nat.dvd_antisymm
    · exact Nat.lcm_dvd ((dvd_lcmOf (headD_mem hne)).trans (Nat.dvd_lcm_left _ _))
        (Nat.dvd_lcm_right _ _)
    · exact Nat.lcm_dvd hdvd (Nat.dvd_lcm_right _ _)

/-- A call after calls that were right. -/
theorem val_add_iff {pre : List UInt32} {x : UInt32} (hpos : ∀ y ∈ pre ++ [x], y ≠ 0)
    (hfit : lcmOf (pre ++ [x]) < 2 ^ 32)
    (hval : pre ≠ [] → (of pre).val.toNat = lcmOf pre) :
    ((of pre).add x).val.toNat = lcmOf (pre ++ [x]) ↔ FirstSuffices pre x := by
  by_cases hne : pre = []
  · subst hne
    refine iff_of_true ?_ (Or.inl rfl)
    rw [lcmOf_concat]
    exact (Nat.lcm_one_left _).symm
  · have hvals : (of pre).vals ≠ [] := fun h => hne (vals_of_eq_nil_iff.mp h)
    have hcovers : (x ≤ (of pre).val ∧ (of pre).val % x = 0) ↔ x.toNat ∣ lcmOf pre := by
      rw [UInt32.le_iff_toNat_le, ← UInt32.toNat_inj, UInt32.toNat_mod, hval hne]
      constructor
      · intro h
        exact Nat.dvd_of_mod_eq_zero h.2
      · intro h
        exact ⟨Nat.le_of_dvd (lcmOf_pos fun y hy => hpos y (List.mem_append_left _ hy)) h,
          Nat.mod_eq_zero_of_dvd h⟩
    rw [FirstSuffices, or_iff_right hne]
    by_cases hdvd : x.toNat ∣ lcmOf pre
    · refine iff_of_true ?_ (Or.inl hdvd)
      rw [add, if_neg hvals, if_pos (hcovers.mpr hdvd), hval hne, lcmOf_concat]
      exact (Nat.lcm_eq_left hdvd).symm
    · have hroom := room_of hpos hfit hne
      rw [or_iff_right hdvd, add_pushed hvals (fun h => hdvd (hcovers.mp h)) hroom,
        UInt32.toNat_ofNat', Nat.mod_eq_of_lt hroom.ends_lt, ends_of hne]
      exact lcm_first_eq_iff hne x

/-- **The calls end, and give the least common multiple of the values so far exactly when the
first value suffices at each of them.** -/
theorem add_eq_lcm_iff {xs : List UInt32} (hpos : ∀ x ∈ xs, x ≠ 0) (hfit : lcmOf xs < 2 ^ 32) :
    (∀ pre x, pre ++ [x] <+: xs → ∀ fuel, ((of pre).vals.length + 1) * 2 ^ 32 ≤ fuel →
        addSteps fuel (of pre) x = some ((of pre).add x)) ∧
      ((∀ pre x, pre ++ [x] <+: xs → ((of pre).add x).val.toNat = lcmOf (pre ++ [x])) ↔
        ∀ pre x, pre ++ [x] <+: xs → FirstSuffices pre x) := by
  have hpos' : ∀ {pre x}, pre ++ [x] <+: xs → ∀ y ∈ pre ++ [x], y ≠ 0 :=
    fun hpre y hy => hpos y (hpre.subset hy)
  have hfit' : ∀ {pre x}, pre ++ [x] <+: xs → lcmOf (pre ++ [x]) < 2 ^ 32 := fun hpre =>
    lt_of_le_of_lt (Nat.le_of_dvd (lcmOf_pos hpos) (lcmOf_dvd_of_isPrefix hpre)) hfit
  refine ⟨fun pre x hpre fuel hfuel => ?_, ?_, ?_⟩
  · refine addSteps_eq (fun hvals => room_of (hpos' hpre) (hfit' hpre) ?_) hfuel
    exact fun h => hvals (vals_of_eq_nil_iff.mpr h)
  · intro hright pre x hpre
    refine (val_add_iff (hpos' hpre) (hfit' hpre) ?_).mp (hright pre x hpre)
    intro hne
    obtain ⟨pre, y, rfl⟩ := List.eq_nil_or_concat' pre |>.resolve_left hne
    rw [of_concat]
    exact hright pre y ((List.prefix_append _ _).trans hpre)
  · intro hsuffices pre
    induction pre using List.reverseRecOn with
    | nil => exact fun x hpre => (val_add_iff (hpos' hpre) (hfit' hpre) (absurd rfl)).mpr (Or.inl rfl)
    | append_singleton pre y ih =>
      intro x hpre
      refine (val_add_iff (hpos' hpre) (hfit' hpre) fun _ => ?_).mpr (hsuffices _ x hpre)
      rw [of_concat]
      exact ih y ((List.prefix_append _ _).trans hpre)

/-- Of `2 3` the second is the last. -/
theorem add_eq_lcm_iff_two :
    (∀ x ∈ [(2 : UInt32), 3], x ≠ 0) ∧ lcmOf [2, 3] < 2 ^ 32 ∧
      ((of [2]).add 3).val.toNat = lcmOf ([2] ++ [3]) := by
  have hpos : ∀ x ∈ [(2 : UInt32), 3], x ≠ 0 := by simp
  have hfit : lcmOf [2, 3] < 2 ^ 32 := by decide
  refine ⟨hpos, hfit, ((add_eq_lcm_iff hpos hfit).2.mpr ?_) [2] 3 (List.prefix_refl _)⟩
  intro pre x hpre
  match pre with
  | [] => exact Or.inl rfl
  | [y] =>
    obtain ⟨rfl, rfl⟩ : y = 2 ∧ x = 3 := by simpa using hpre
    exact Or.inr (Or.inr (by decide))
  | y :: z :: pre => exact absurd hpre.length_le (by simp)

/-- After `2 3` the value `4` ends the loop at 4, where the running multiple of 3 is 6. -/
theorem third_value_ends_early :
    ¬ (∀ xs : List UInt32, (∀ x ∈ xs, x ≠ 0) → lcmOf xs < 2 ^ 32 →
        ∀ pre x, pre ++ [x] <+: xs → ((of pre).add x).val.toNat = lcmOf (pre ++ [x])) ∧
      ((of [2, 3]).add 4).val = 4 ∧ lcmOf [2, 3, 4] = 12 := by
  have hval : ((of [2, 3]).add 4).val = 4 := by decide +kernel
  refine ⟨fun h => ?_, hval, by decide⟩
  have hright := h [2, 3, 4] (by simp) (by decide) [2, 3] 4 (List.prefix_refl _)
  rw [hval] at hright
  exact absurd hright (by decide)

end LCM

end Raims
