import Raims.Graph.Forward
import Raims.Graph.PathLcm
import Raims.Graph.UpdateGraph

/-!
# How many paths there are (`path_count`)

A graph counts its paths from three sources: the least common multiple of the numbers of
paths of its costs, as `LCM::add` finds it; the largest number of equally cheap links to a
user already found that the search of path 0 met, rounded up to a power of two, when that
is more; and the limit, which bounds the second only.
-/

namespace Raims

namespace LCM

/-! ## Path counts of 16 bits -/

/-- Two different numbers of 16 bits leave room for all the others. -/
theorem room_of_small {vals : List UInt32} (htwo : 1 < vals.length)
    (hsmall : ∀ v ∈ vals, v ≠ 0 ∧ v.toNat < 2 ^ 16) (hne : vals.headD 0 ≠ vals.getLastD 0) :
    Room vals := by
  have hlen : 0 < vals.length := Nat.lt_of_succ_lt htwo
  have ha : (vals.headD 0).toNat < 2 ^ 16 := by
    rw [headD_eq_getD]
    exact (hsmall _ (getD_mem hlen)).2
  have hb : (vals.getLastD 0).toNat < 2 ^ 16 := by
    rw [getLastD_eq_getD]
    exact (hsmall _ (getD_mem (Nat.sub_lt hlen Nat.one_pos))).2
  have hab : (vals.headD 0).toNat ≠ (vals.getLastD 0).toNat := fun h => hne (UInt32.toNat_inj.mp h)
  have hends : ends vals ≤ 65535 * 65534 := by
    apply le_trans (Nat.div_le_self _ _)
    rcases lt_or_gt_of_ne hab with hlt | hlt
    · rw [Nat.mul_comm]
      exact Nat.mul_le_mul (by omega) (by omega)
    · exact Nat.mul_le_mul (by omega) (by omega)
  refine ⟨htwo, fun v hv => (hsmall v hv).1, fun v hv t _ hlt => ?_⟩
  have hv := (hsmall v hv).2
  omega

/-- What the values come to when each is left out or makes up with the first alone. -/
def found (first : ℕ) (rest : List ℕ) : ℕ :=
  rest.foldl (fun m n => if n ∣ m then m else Nat.lcm first n) first

theorem first_dvd_found (first : ℕ) (rest : List ℕ) : first ∣ found first rest := by
  induction rest using List.reverseRecOn with
  | nil => exact Nat.dvd_refl first
  | append_singleton rest n ih =>
    rw [found, List.foldl_concat]
    split
    · exact ih
    · exact Nat.dvd_lcm_left _ _

theorem found_pos {first : ℕ} {rest : List ℕ} (hfirst : 0 < first) (hrest : ∀ n ∈ rest, 0 < n) :
    0 < found first rest := by
  induction rest using List.reverseRecOn with
  | nil => exact hfirst
  | append_singleton rest n ih =>
    rw [found, List.foldl_concat]
    split
    · exact ih fun m hm => hrest m (List.mem_append_left _ hm)
    · exact Nat.lcm_pos hfirst (hrest n (by simp))

/-- `add` of numbers of 16 bits. -/
theorem val_of_small {first : UInt32} {rest : List UInt32}
    (hsmall : ∀ v ∈ first :: rest, v ≠ 0 ∧ v.toNat < 2 ^ 16) :
    (of (first :: rest)).val.toNat = found first.toNat (rest.map UInt32.toNat) := by
  induction rest using List.reverseRecOn with
  | nil => rfl
  | append_singleton rest x ih =>
    have hbefore : ∀ v ∈ first :: rest, v ≠ 0 ∧ v.toNat < 2 ^ 16 := fun v hv =>
      hsmall v (by rw [← List.cons_append]; exact List.mem_append_left _ hv)
    have hx := hsmall x (by simp)
    have hval := ih hbefore
    have hpos : 0 < (of (first :: rest)).val.toNat := by
      rw [hval]
      refine found_pos ?_ fun n hn => ?_
      · exact Nat.pos_of_ne_zero fun h0 => (hbefore first (by simp)).1 (UInt32.toNat_inj.mp h0)
      · obtain ⟨v, hv, rfl⟩ := List.mem_map.mp hn
        exact Nat.pos_of_ne_zero fun h0 =>
          (hbefore v (List.mem_cons_of_mem _ hv)).1 (UInt32.toNat_inj.mp h0)
    have hvals : (of (first :: rest)).vals ≠ [] := fun h => absurd (vals_of_eq_nil_iff.mp h) (by simp)
    have hcovers : (x ≤ (of (first :: rest)).val ∧ (of (first :: rest)).val % x = 0) ↔
        x.toNat ∣ (of (first :: rest)).val.toNat := by
      rw [UInt32.le_iff_toNat_le, ← UInt32.toNat_inj, UInt32.toNat_mod]
      constructor
      · intro h
        exact Nat.dvd_of_mod_eq_zero h.2
      · intro h
        exact ⟨Nat.le_of_dvd hpos h, Nat.mod_eq_zero_of_dvd h⟩
    rw [← List.cons_append, of_concat, List.map_append, List.map_singleton, found,
      List.foldl_concat, ← found, ← hval]
    split
    · next hdvd => rw [add, if_neg hvals, if_pos (hcovers.mpr hdvd)]
    · next hdvd =>
      have hkeeps := keeps_of (first :: rest)
      have hends := @ends_of (first :: rest) (by simp) x
      have hroom : Room ((of (first :: rest)).vals ++ [x]) := by
        apply room_of_small
        · rw [List.length_append, List.length_singleton, Nat.lt_add_left_iff_pos,
            List.length_pos_iff]
          exact hvals
        · intro v hv
          rcases List.mem_append.mp hv with hv | hv
          · exact hbefore v (hkeeps.subset v hv)
          · rw [List.mem_singleton.mp hv]
            exact hx
        · rw [List.headD_eq_head?_getD, List.head?_append_of_ne_nil _ hvals, hkeeps.head,
            List.getLastD_concat]
          rintro rfl
          apply hdvd
          rw [hval]
          exact first_dvd_found _ _
      rw [add_pushed hvals (fun h => hdvd (hcovers.mp h)) hroom, UInt32.toNat_ofNat',
        Nat.mod_eq_of_lt hroom.ends_lt, hends]
      rfl

end LCM

/-! ## The path count of a graph -/

/-- The count that the numbers of paths of the links come to: those that are one are not
added. -/
def pathLcm (counts : List ℕ) : ℕ :=
  match counts.filter (1 < ·) with
  | [] => 1
  | first :: rest => LCM.found first rest

theorem pathLcm_pos (counts : List ℕ) : 0 < pathLcm counts := by
  unfold pathLcm
  split
  · exact Nat.one_pos
  · next first rest h =>
    have hbig : ∀ n ∈ first :: rest, 0 < n := by
      intro n hn
      rw [← h] at hn
      exact Nat.zero_lt_of_lt (of_decide_eq_true (List.mem_filter.mp hn).2)
    exact LCM.found_pos (hbig first (by simp)) fun n hn => hbig n (List.mem_cons_of_mem _ hn)

namespace AdjGraph

/-- The numbers that are added for the links. -/
def added (calls : List LinkArgs) : List UInt32 :=
  (calls.filter fun c => 1 < c.cost.path.count).map fun c => c.cost.path.count.toUInt32

theorem small_of_mem_added {calls : List LinkArgs} {v : UInt32} (h : v ∈ added calls) :
    v ≠ 0 ∧ v.toNat < 2 ^ 16 := by
  obtain ⟨c, hc, rfl⟩ := List.mem_map.mp h
  have hone : (1 : ℕ) < c.cost.path.count.toNat :=
    UInt16.lt_iff_toNat_lt.mp (of_decide_eq_true (List.mem_filter.mp hc).2)
  refine ⟨fun h0 => ?_, c.cost.path.count.toNat_lt⟩
  have hzero : c.cost.path.count.toNat = 0 := congrArg UInt32.toNat h0
  omega

/-- The links leave the values in the graph and their multiple as its path count. -/
theorem lcm_foldl_addLink (calls : List LinkArgs) {g : AdjGraph} (hlcm : g.lcm = LCM.empty)
    (hcount : g.pathCount = 1) :
    (calls.foldl addLinkCall g).lcm = LCM.of (added calls) ∧
      (calls.foldl addLinkCall g).pathCount =
        if added calls = [] then 1 else (LCM.of (added calls)).val.toNat := by
  induction calls using List.reverseRecOn with
  | nil => exact ⟨hlcm, hcount⟩
  | append_singleton calls c ih =>
    obtain ⟨ihlcm, ihcount⟩ := ih
    rw [List.foldl_concat, addLinkCall, addLink, addPathCount]
    by_cases hc : 1 < c.cost.path.count
    · have hadded : added (calls ++ [c]) = added calls ++ [c.cost.path.count.toUInt32] := by
        simp [added, hc]
      rw [if_pos hc, hadded, LCM.of_concat, if_neg (by simp)]
      constructor
      · exact congrArg (fun l => l.add c.cost.path.count.toUInt32) ihlcm
      · exact congrArg (fun l => (l.add c.cost.path.count.toUInt32).val.toNat) ihlcm
    · have hadded : added (calls ++ [c]) = added calls := by simp [added, hc]
      rw [if_neg hc, hadded]
      exact ⟨ihlcm, ihcount⟩

end AdjGraph

/-- The numbers of paths of the links of the graph, in the order in which they are added. -/
def LinkDB.pathCounts (db : LinkDB) (list : List ℕ) : List ℕ :=
  (db.callsOf list).map fun c => c.cost.path.count.toNat

/-- **The path count that `update_graph` leaves** before a path is computed. -/
theorem LinkDB.pathCount_updateGraph (db : LinkDB) (pathLimit : ℕ) {list : List ℕ}
    (h : list.Nodup) :
    (db.updateGraph list pathLimit).pathCount = pathLcm (db.pathCounts list) := by
  have hone : ∀ c : LinkArgs, 1 < c.cost.path.count ↔ 1 < c.cost.path.count.toNat := fun c =>
    UInt16.lt_iff_toNat_lt
  have hcounts : (db.pathCounts list).filter (1 < ·) =
      (AdjGraph.added (db.callsOf list)).map UInt32.toNat := by
    rw [pathCounts, AdjGraph.added, List.filter_map, List.map_map]
    simp only [Function.comp_def, hone]
    rfl
  rw [updateGraph_eq db pathLimit h, (AdjGraph.lcm_foldl_addLink _ rfl rfl).2, pathLcm, hcounts]
  cases hadded : AdjGraph.added (db.callsOf list) with
  | nil => rfl
  | cons first rest =>
    rw [if_neg (by simp)]
    exact LCM.val_of_small fun v hv => AdjGraph.small_of_mem_added (hadded ▸ hv)

/-! ## The path count with the alternatives -/

namespace AdjGraph

variable {H : AdjHash} {g : AdjGraph}

/-- The most links to users already found, equally cheap, that a step of the search of path 0
meets, from any user. -/
def alternatives (H : AdjHash) (g : AdjGraph) : ℕ :=
  (List.range g.userTab.length).foldl (fun m idx => max m (g.forwardFrom H 0 idx).maxAlt) 0

theorem le_doubleAbove (bound : ℕ) : ∀ fuel i : ℕ, i ≤ doubleAbove bound fuel i
  | 0, i => Nat.le_refl i
  | fuel + 1, i => by
    rw [doubleAbove]
    split
    · have hnext := le_doubleAbove bound fuel (i * 2)
      omega
    · exact Nat.le_refl i

/-- Doubling ends at a power of two at most exactly when the bound is below it. -/
theorem doubleAbove_le_iff (bound m : ℕ) {fuel k : ℕ} (hk : k ≤ m) (hfuel : m - k < fuel) :
    doubleAbove bound fuel (2 ^ k) ≤ 2 ^ m ↔ bound < 2 ^ m := by
  induction fuel generalizing k with
  | zero => exact absurd hfuel (Nat.not_lt_zero _)
  | succ fuel ih =>
    rw [doubleAbove, ← Nat.pow_succ]
    split
    · next hle =>
      rcases Nat.eq_or_lt_of_le hk with rfl | hlt
      · refine iff_of_false (fun h => ?_) (Nat.not_lt.mpr hle)
        have hge := (le_doubleAbove bound fuel (2 ^ (k + 1))).trans h
        exact absurd (Nat.pow_le_pow_iff_right (by decide) |>.mp hge) (Nat.not_succ_le_self k)
      · exact ih hlt (by omega)
    · next hgt =>
      have hpow : 2 ^ k ≤ 2 ^ m := Nat.pow_le_pow_right (by decide) hk
      exact iff_of_true hpow (lt_of_lt_of_le (Nat.lt_of_not_le hgt) hpow)

/-- Path 0 of a graph whose paths are not computed yet. -/
theorem pathCount_compute_zero (h : g.maxAlt = 0) :
    (g.computeForwardSet H 0).pathCount =
      if g.pathCount < g.alternatives H then
        min (doubleAbove (g.alternatives H / 2) 32 1) g.pathLimit
      else g.pathCount := by
  simp only [computeForwardSet, h, true_and]
  rfl

theorem pathCount_compute_ne {p : UInt16} (hp : p ≠ 0) :
    (g.computeForwardSet H p).pathCount = g.pathCount := by
  simp only [computeForwardSet, hp, false_and, if_false]

end AdjGraph

/-- Adding links computes no path and keeps the limit. -/
theorem AdjGraph.foldl_addLink_kept (calls : List LinkArgs) (g : AdjGraph) :
    (calls.foldl addLinkCall g).maxAlt = g.maxAlt ∧
      (calls.foldl addLinkCall g).pathLimit = g.pathLimit := by
  induction calls using List.reverseRecOn with
  | nil => exact ⟨rfl, rfl⟩
  | append_singleton calls c ih =>
    rw [List.foldl_concat, addLinkCall, addLink, addPathCount]
    split
    · exact ih
    · exact ih

theorem LinkDB.updateGraph_fresh (db : LinkDB) (pathLimit : ℕ) {list : List ℕ}
    (h : list.Nodup) :
    (db.updateGraph list pathLimit).maxAlt = 0 ∧
      (db.updateGraph list pathLimit).pathLimit = pathLimit := by
  rw [updateGraph_eq db pathLimit h]
  exact AdjGraph.foldl_addLink_kept _ _

/-- The condition on the counts, the alternatives and the limit. -/
def CountFits (lcm alternatives pathLimit : ℕ) : Prop :=
  if lcm < alternatives then pathLimit ≠ 0 ∧ (pathLimit ≤ 256 ∨ alternatives < 512)
  else lcm ≤ 256

/-- **The path count fits in a byte**, and is not zero, on this condition. -/
theorem AdjGraph.pathCount_fits_iff {H : AdjHash} {g : AdjGraph} (h : g.maxAlt = 0)
    (hpos : 0 < g.pathCount) :
    (g.computeForwardSet H 0).pathCount ≠ 0 ∧ (g.computeForwardSet H 0).pathCount ≤ 256 ↔
      CountFits g.pathCount (g.alternatives H) g.pathLimit := by
  rw [pathCount_compute_zero h, CountFits]
  split
  · have hdouble := @doubleAbove_le_iff (g.alternatives H / 2) 8 32 0 (by decide) (by decide)
    have hge := le_doubleAbove (g.alternatives H / 2) 32 1
    rw [Nat.pow_zero] at hdouble
    have hhalf : g.alternatives H / 2 < 2 ^ 8 ↔ g.alternatives H < 512 := by omega
    rw [min_le_iff, show (256 : ℕ) = 2 ^ 8 from rfl, hdouble, hhalf, or_comm (a := _ < 512)]
    refine and_congr_left fun _ => ?_
    omega
  · exact and_iff_right (Nat.ne_of_gt hpos)

end Raims
