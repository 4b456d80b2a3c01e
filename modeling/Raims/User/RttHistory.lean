import Mathlib.Data.List.Infix
import Mathlib.Data.List.Rotate
import Raims.Lib.Run

/-!
# The history of round trip times (`RttHistory`)

The round trip times of a peer are appended to an array. When it has more than 32 and
the first is older than an hour a quarter goes. What goes to the front of the array is
the newest quarter, and not the rest of the array behind the oldest.
-/

namespace Raims

/-! ## The model -/

/-- `Rtt` -/
structure Rtt where
  latency : UInt64
  monoTime : UInt64
deriving DecidableEq

/-- `sec_to_ns( 60 * 60 )` -/
def hourNs : UInt64 := 60 * 60 * 1000000000

/-- The elements of the array, `count` of them. -/
abbrev RttHistory := List Rtt

namespace RttHistory

/-- The test of `append`, after `x` was pushed. -/
def trims (h : RttHistory) (x : Rtt) : Bool :=
  hourNs < x.monoTime - (h.headD x).monoTime && 32 < h.length

/-- The `memmove` of `append`: the last `amt` go to the front of the array. -/
def moveLast (h : RttHistory) (amt : ℕ) : RttHistory := h.drop (h.length - amt) ++ h.drop amt

/-- `append` -/
def append (h : RttHistory) (x : Rtt) : RttHistory :=
  let h := h ++ [x]
  if h.trims x then
    let amt := h.length / 4
    (h.moveLast amt).take (h.length - amt)
  else h

/-! ### Runs -/

/-- What was appended, and the history. -/
structure Samples where
  appended : List Rtt
  history : RttHistory

def Samples.append (s : Samples) (x : Rtt) : Samples :=
  ⟨s.appended ++ [x], s.history.append x⟩

/-- The history is the last of what was appended, with the newest. -/
def Samples.Kept (s : Samples) : Prop :=
  s.history <:+ s.appended ∧ s.history.getLast? = s.appended.getLast?

/-- Nothing is trimmed, or what is kept of the array is the same when its newest part
goes to the front: the values repeat. -/
def Samples.Unmoved (s : Samples) (x : Rtt) : Prop :=
  let h := s.history ++ [x]
  let kept := h.drop (h.length / 4)
  h.trims x = true → kept.rotate (kept.length - h.length / 4) = kept

/-! ## What is kept -/

variable {h h' : RttHistory} {x : Rtt} {s : Samples}

/-- What is left in the array after a trim is its rest, with the newest quarter in
front. -/
theorem take_moveLast {amt : ℕ} (hamt : 2 * amt ≤ h.length) :
    (h.moveLast amt).take (h.length - amt) =
      (h.drop amt).rotate ((h.drop amt).length - amt) := by
  have hlen : (h.drop amt).length = h.length - amt := List.length_drop
  have hnew : (h.drop (h.length - amt)).length = amt := by
    rw [List.length_drop]
    omega
  rw [List.rotate_eq_drop_append_take (Nat.sub_le _ _), hlen, List.drop_drop, moveLast,
    List.take_append, hnew, List.take_of_length_le (by rw [hnew]; omega)]
  congr 2
  omega

theorem append_of_trims (htrims : trims (h ++ [x]) x = true) :
    h.append x = ((h ++ [x]).drop ((h ++ [x]).length / 4)).rotate
      (((h ++ [x]).drop ((h ++ [x]).length / 4)).length - (h ++ [x]).length / 4) := by
  rw [append, if_pos htrims]
  exact take_moveLast (by omega)

theorem append_of_not_trims (htrims : trims (h ++ [x]) x = false) : h.append x = h ++ [x] := by
  rw [append, htrims]
  rfl

/-- Two ends of one list that are as long are the same. -/
theorem eq_of_suffix {l : List Rtt} (hh : h <:+ l) (hh' : h' <:+ l)
    (hlen : h.length = h'.length) : h = h' :=
  (List.suffix_of_suffix_length_le hh hh' (Nat.le_of_eq hlen)).eq_of_length hlen

theorem Samples.Kept.append_iff (hs : s.Kept) : (s.append x).Kept ↔ s.Unmoved x := by
  obtain ⟨hsuffix, -⟩ := hs
  have hpush : s.history ++ [x] <:+ s.appended ++ [x] := List.suffix_append_self_iff.mpr hsuffix
  cases htrims : trims (s.history ++ [x]) x with
  | false =>
    constructor
    · intro _ htrims'
      rw [htrims] at htrims'
      cases htrims'
    · intro _
      refine ⟨?_, ?_⟩
      · show s.history.append x <:+ s.appended ++ [x]
        rw [append_of_not_trims htrims]
        exact hpush
      · show (s.history.append x).getLast? = (s.appended ++ [x]).getLast?
        rw [append_of_not_trims htrims, List.getLast?_concat, List.getLast?_concat]
  | true =>
    have hdrop : (s.history ++ [x]).drop ((s.history ++ [x]).length / 4) <:+ s.appended ++ [x] :=
      (List.drop_suffix _ _).trans hpush
    constructor
    · rintro ⟨hkept, -⟩ -
      have hkept' : s.history.append x <:+ s.appended ++ [x] := hkept
      rw [append_of_trims htrims] at hkept'
      exact eq_of_suffix hkept' hdrop (List.length_rotate _ _)
    · intro hsame
      have heq : s.history.append x =
          (s.history ++ [x]).drop ((s.history ++ [x]).length / 4) := by
        rw [append_of_trims htrims]
        exact hsame htrims
      have hlt : (s.history ++ [x]).length / 4 < (s.history ++ [x]).length := by
        apply Nat.div_lt_self _ (by decide)
        rw [List.length_append]
        exact Nat.succ_pos _
      refine ⟨?_, ?_⟩
      · show s.history.append x <:+ s.appended ++ [x]
        rw [heq]
        exact hdrop
      · show (s.history.append x).getLast? = (s.appended ++ [x]).getLast?
        rw [heq, List.getLast?_drop, if_neg (Nat.not_le_of_lt hlt), List.getLast?_concat,
          List.getLast?_concat]

/-- **The history is the end of what was appended** in every state of a run exactly as
long as nothing is trimmed whose newest quarter does not look like the rest. -/
theorem kept_iff_unmoved (xs : List Rtt) :
    (∀ k, ((xs.take k).foldl Samples.append ⟨[], []⟩).Kept) ↔
      Run.AllOk Samples.append Samples.Unmoved ⟨[], []⟩ xs := by
  symm
  apply Run.allOk_iff_good fun (s : Samples) (hs : s.Kept) => hs
  · intro s x hs hok
    exact hs.append_iff.mpr hok
  · intro s x hs hgood
    exact hs.append_iff.mp hgood
  · exact ⟨List.suffix_refl _, rfl⟩

/-- A sample, and 32 that come two hours later, with the latencies 1, 2 and so on. -/
def twoHoursLater : List Rtt :=
  ⟨0, 0⟩ :: (List.range 32).map fun i => ⟨UInt64.ofNat (i + 1), 2 * hourNs⟩

/-- The newest eight are in front of those before them, and the array ends with the
older ones. -/
theorem newest_goes_to_front :
    twoHoursLater.Pairwise (fun x y => x.monoTime ≤ y.monoTime) ∧
      (twoHoursLater.foldl Samples.append ⟨[], []⟩).history.map Rtt.latency =
        [25, 26, 27, 28, 29, 30, 31, 32, 8, 9, 10, 11, 12, 13, 14, 15, 16, 17, 18, 19, 20, 21, 22,
          23, 24] ∧
      ¬ ∀ xs : List Rtt, xs.Pairwise (fun x y => x.monoTime ≤ y.monoTime) →
        (xs.foldl Samples.append ⟨[], []⟩).Kept := by
  have hsorted : twoHoursLater.Pairwise (fun x y => x.monoTime ≤ y.monoTime) := by decide +kernel
  refine ⟨hsorted, by decide +kernel, fun h => ?_⟩
  have hlast := (h twoHoursLater hsorted).2
  have hne : (twoHoursLater.foldl Samples.append ⟨[], []⟩).history.getLast? ≠
      (twoHoursLater.foldl Samples.append ⟨[], []⟩).appended.getLast? := by decide +kernel
  exact hne hlast

end RttHistory

end Raims
