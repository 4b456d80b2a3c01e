import Raims.Graph.LoadedGraph
import Raims.Lib.StrikeOff

/-!
# Links that come in pairs

A connection is a link each way. The links of a graph, or those of one type or of one name,
are read back as they were when between every two users there are as many of each kind as
there are connections of it.
-/

namespace Raims

namespace PrintGraph

open StrikeOff (hasKey hasKey_iff)

/-- The two users of a link. -/
def ends (l : AdjLink) : ℕ × ℕ := (l.a, l.b)

/-- The kinds of the links from one user to another. -/
def between (ls : List AdjLink) (x y : ℕ) : Multiset LinkKind :=
  ((ls.filter (hasKey ends (x, y))).map kindOf : List LinkKind)

/-- The links of one user stand before those of the next. -/
def SourceSorted (T : List AdjLink) : Prop := T.Pairwise fun l l' => l.a ≤ l'.a

/-- Links of which each has one back. -/
structure PairedTable (T : List AdjLink) : Prop where
  sorted : SourceSorted T
  symm : ∀ x y, between T x y = between T y x
  even : ∀ x, ∃ kinds, between T x x = kinds + kinds

/-- The connections that are printed are the links, one each way. -/
def ReadsBack (T printed : List AdjLink) : Prop :=
  ∀ x y, between T x y = between printed x y + between printed y x

variable {T P : List AdjLink} {l : AdjLink} {k : LinkKind} {x y : ℕ}

theorem mem_ends : l ∈ T.filter (hasKey ends (x, y)) ↔ l ∈ T ∧ l.a = x ∧ l.b = y := by
  rw [List.mem_filter, hasKey_iff, ends, Prod.mk.injEq]

theorem mem_between : k ∈ between T x y ↔ ∃ l ∈ T, l.a = x ∧ l.b = y ∧ kindOf l = k := by
  rw [between, Multiset.mem_coe, List.mem_map]
  constructor
  · rintro ⟨l, hl, rfl⟩
    obtain ⟨hmem, ha, hb⟩ := mem_ends.1 hl
    exact ⟨l, hmem, ha, hb, rfl⟩
  · rintro ⟨l, hmem, ha, hb, rfl⟩
    exact ⟨l, mem_ends.2 ⟨hmem, ha, hb⟩, rfl⟩

theorem between_map {f : AdjLink → AdjLink} (hf : ∀ l, ends (f l) = ends l) (ls : List AdjLink)
    (x y : ℕ) : between (ls.map f) x y =
      ((ls.filter (hasKey ends (x, y))).map (kindOf ∘ f) : List LinkKind) := by
  have hkey : hasKey ends (x, y) ∘ f = hasKey ends (x, y) := by
    funext l
    rw [Function.comp_apply, hasKey, hf, hasKey]
  rw [between, List.filter_map, hkey, List.map_map]

/-- The links of some kinds. -/
theorem between_filter (q : LinkKind → Bool) (T : List AdjLink) (x y : ℕ) :
    between (T.filter fun l => q (kindOf l)) x y = (between T x y).filter fun k => q k = true := by
  rw [between, between, Multiset.filter_coe, List.filter_map, List.filter_filter,
    List.filter_filter]
  refine congrArg _ (congrArg (List.map kindOf) (List.filter_congr fun l _ => ?_))
  rw [Function.comp_apply, Bool.decide_eq_true, Bool.and_comm]

namespace PairedTable

theorem perm (hT : PairedTable T) (x y : ℕ) :
    ((T.filter (hasKey ends (x, y))).map kindOf).Perm
      ((T.filter (hasKey ends (y, x))).map kindOf) :=
  Multiset.coe_eq_coe.1 (hT.symm x y)

theorem length_eq (hT : PairedTable T) (x y : ℕ) :
    (T.filter (hasKey ends (x, y))).length = (T.filter (hasKey ends (y, x))).length := by
  have hlen := (hT.perm x y).length_eq
  rwa [List.length_map, List.length_map] at hlen

/-- The link back. -/
theorem exists_back (hT : PairedTable T) (hl : l ∈ T) :
    ∃ l' ∈ T, l'.a = l.b ∧ l'.b = l.a ∧ kindOf l' = kindOf l := by
  have hmem : kindOf l ∈ between T l.a l.b := mem_between.2 ⟨l, hl, rfl, rfl, rfl⟩
  rw [hT.symm] at hmem
  exact mem_between.1 hmem

/-- The links of some kinds are there both ways. -/
theorem filter_kind (hT : PairedTable T) (q : LinkKind → Bool) :
    PairedTable (T.filter fun l => q (kindOf l)) where
  sorted := hT.sorted.sublist List.filter_sublist
  symm := by
    intro x y
    rw [between_filter, between_filter, hT.symm]
  even := by
    intro x
    obtain ⟨kinds, hkinds⟩ := hT.even x
    refine ⟨kinds.filter fun k => q k = true, ?_⟩
    rw [between_filter, hkinds, Multiset.filter_add]

/-- Links of the same names are there both ways. -/
theorem filter_perm (hT : PairedTable T) (q : String → Bool) (x y : ℕ) :
    (((T.filter (hasKey ends (x, y))).filter fun l => q l.tport).map kindOf).Perm
      (((T.filter (hasKey ends (y, x))).filter fun l => q l.tport).map kindOf) := by
  have hname : ∀ ls : List AdjLink, (ls.map kindOf).filter (fun k => q k.2.1) =
      (ls.filter fun l => q l.tport).map kindOf := fun ls => List.filter_map
  rw [← hname, ← hname]
  exact (hT.perm x y).filter _

end PairedTable

/-- Links are read back when those of each type are, or those of each name. -/
theorem readsBack_iff_forall {κ : Type*} [DecidableEq κ] (f : LinkKind → κ) :
    ReadsBack T P ↔ ∀ c, ReadsBack (T.filter fun l => f (kindOf l) = c)
      (P.filter fun l => f (kindOf l) = c) := by
  have hfilter : ∀ (ls : List AdjLink) (c : κ) (x y : ℕ),
      between (ls.filter fun l => f (kindOf l) = c) x y =
        (between ls x y).filter fun k => f k = c := by
    intro ls c x y
    refine (between_filter (fun k => decide (f k = c)) ls x y).trans ?_
    exact Multiset.filter_congr fun k _ => decide_eq_true_iff
  constructor
  · intro h c x y
    rw [hfilter, hfilter, hfilter, h, Multiset.filter_add]
  · intro h x y
    refine Multiset.ext.2 fun k => ?_
    have hk := congrArg (Multiset.count k) (h (f k) x y)
    have hself : ∀ M : Multiset LinkKind, (M.filter fun k' => f k' = f k).count k = M.count k :=
      fun M => Multiset.count_filter_of_pos rfl
    rwa [hfilter, hfilter, hfilter, ← Multiset.filter_add, hself, hself] at hk

end PrintGraph

end Raims
