import Raims.Graph.LeastCost
import Raims.Graph.GraphLinks
import Raims.Graph.ShortestPath
import Mathlib.Tactic.Ring

/-!
# `calc_cost`, `calc_transport_cost` and `calc_transport_cache`

With costs of at least one and sums that fit in 32 bits, a search whose tree has room in the
stack returns the least cost of a path, and no other does: from `src_uid` for `calc_cost`, and over
the transport and not through this node again for `calc_transport_cost`. The tree of this node in
the graph has the least costs over its links, where one to a member that is not listed is one to
the oldest user, and the cache gives back what the search gave.
-/

namespace Raims

namespace UidDB

open LabelSearch

/-! ## The calls -/

/-- A call returns `c`, whatever the fuel, if there is enough of it. -/
def Returns (f : ℕ → Option Outcome) (c : UInt32) : Prop :=
  ∃ fuel₀, ∀ fuel ≥ fuel₀, f fuel = some (.cost c)

/-- The tree of the users that a search finds at lower and lower costs has room in `max_uid`
places. -/
def StackFits (db : UidDB) (p : UInt16) (dest : ℕ) (s₀ : SearchState) : Prop :=
  ∃ n ≤ db.nextUid, db.TreeRoom p dest s₀.todo s₀.labels n

section Calls

variable {db : UidDB} {p : UInt16} {dest : ℕ}

theorem searchCost_returns_iff {s₀ : SearchState} (h : s₀.stack = []) :
    (∃ c, Returns (fun fuel => db.searchCost p dest fuel s₀) c) ↔ db.StackFits p dest s₀ := by
  have hstart : s₀ = s₀.labels.state [] s₀.todo := by
    rw [← h]
    rfl
  rw [StackFits, ← searchCost_cost_iff, ← hstart]
  constructor
  · rintro ⟨c, fuel, hc⟩
    exact ⟨fuel, c, hc fuel (le_refl fuel)⟩
  · rintro ⟨fuel, c, hc⟩
    exact ⟨c, fuel, fun fuel' hle => searchCost_mono hle hc⟩

end Calls

/-! ## `calc_cost` -/

section CalcCost

variable {db : UidDB} {p : UInt16} {dest src : ℕ}

/-- Every link costs at least one on path `p`. -/
def PosCost (db : UidDB) (p : UInt16) : Prop := ∀ a b k, db.Edge p a b k → 1 ≤ k

/-- A path begins at `src`. -/
def FromUser (src a c : ℕ) : Prop := a = src ∧ c = 0

/-- No sum is past 32 bits: that of a path which meets no user twice and of one more link. -/
def SumsFit (db : UidDB) (p : UInt16) : Prop :=
  ∀ src vs a c b k, Trail (db.Edge p) (FromUser src) (fun _ => 0) vs a c → db.Edge p a b k →
    c + k < 2 ^ 32

theorem searchPaths_cost (hpos : db.PosCost p) (hfit : db.SumsFit p) (src : ℕ) :
    SearchPaths db p (db.Edge p) (FromUser src) (fun _ => False) where
  edge := by simp
  pos := hpos
  fits htrail hedge := hfit src _ _ _ _ _ htrail hedge
  start_lt := by
    rintro a c ⟨-, rfl⟩
    decide

theorem sound_startCost (hne : src ≠ dest) :
    Sound (db.Edge p) (FromUser src) (fun _ => False) dest (db.startCost p src) := by
  have htask : ∀ task ∈ (db.startCost p src).todo, ∃ set b, (set, b) ∈ db.entries src ∧
      task = .relax b (set.cost.get p) := by
    intro task hmem
    obtain ⟨⟨set, b⟩, hentry, rfl⟩ := List.mem_map.mp hmem
    exact ⟨set, b, hentry, rfl⟩
  refine ⟨by simp [startCost], ?_, ?_, ?_, ?_, Or.inl rfl, by simp⟩
  · intro uid dist hmem
    obtain ⟨set, b, -, heq⟩ := htask _ hmem
    cases heq
  · intro uid dist hmem
    obtain ⟨set, b, -, heq⟩ := htask _ hmem
    cases heq
  · intro uid dist hmem
    obtain ⟨set, b, hentry, heq⟩ := htask _ hmem
    cases heq
    refine ⟨[src], src, 0, _, .start ⟨rfl, rfl⟩ ?_, ⟨set, hentry, rfl⟩, (Nat.zero_add _).symm, ?_⟩
    · simp [label, startCost, hne]
    · intro _
      simpa using hne.symm
  · intro dist hmem
    obtain ⟨set, b, -, heq⟩ := htask _ hmem
    cases heq

theorem complete_startCost (hne : src ≠ dest) :
    Complete (db.Edge p) (FromUser src) dest (db.startCost p src) := by
  refine ⟨?_, ?_, ?_⟩
  · rintro a c ⟨rfl, rfl⟩
    exact Or.inr (Or.inl ⟨hne, by simp [startCost]⟩)
  · intro dist _
    refine Or.inl ?_
    simp [startCost, Function.update_of_ne hne.symm]
  · rintro a b k ha ⟨set, hentry, rfl⟩
    rcases eq_or_ne a src with rfl | hsrc
    · refine Or.inr (Or.inr (Or.inr (Or.inr ?_)))
      refine ⟨.relax b (set.cost.get p), List.mem_map.mpr ⟨(set, b), hentry, rfl⟩, rfl, ?_⟩
      exact Nat.le_add_left _ _
    · refine Or.inr (Or.inl ?_)
      simp [startCost, Function.update_of_ne hsrc]

/-- `calc_cost` returns no other cost than the least. -/
theorem calcCost_best (hpos : db.PosCost p) (hfit : db.SumsFit p) {fuel : ℕ} {c : UInt32}
    (h : db.calcCost p dest fuel src = some (.cost c)) :
    Best (db.Edge p) (FromUser src) dest c := by
  unfold calcCost at h
  split at h
  · next heq =>
      cases h
      exact Or.inl ⟨.start ⟨heq.symm, rfl⟩, fun _ _ => Nat.zero_le _⟩
  · next hne =>
      exact searchCost_best (searchPaths_cost hpos hfit src) fuel (sound_startCost hne)
        (complete_startCost hne) h

theorem calcCost_mono {fuel fuel' : ℕ} {o : Outcome} (hle : fuel ≤ fuel')
    (h : db.calcCost p dest fuel src = some o) : db.calcCost p dest fuel' src = some o := by
  unfold calcCost at h ⊢
  split
  · next heq => rwa [if_pos heq] at h
  · next hne =>
      rw [if_neg hne] at h
      exact searchCost_mono hle h

theorem calcCost_returns_iff : (∃ c, Returns (fun fuel => db.calcCost p dest fuel src) c) ↔
    (src ≠ dest → db.StackFits p dest (db.startCost p src)) := by
  unfold calcCost
  by_cases heq : src = dest
  · simp only [heq, if_true, ne_eq, not_true, false_implies, iff_true]
    exact ⟨0, 0, fun _ _ => rfl⟩
  · simp only [heq, if_false, ne_eq, not_false_eq_true, forall_const]
    exact searchCost_returns_iff rfl

/-- **`calc_cost` returns the least cost** if its search has room. -/
theorem calcCost_least_iff (hpos : db.PosCost p) (hfit : db.SumsFit p) :
    (∃ c, Returns (fun fuel => db.calcCost p dest fuel src) c ∧
      Best (db.Edge p) (FromUser src) dest c) ↔
        (src ≠ dest → db.StackFits p dest (db.startCost p src)) := by
  rw [← calcCost_returns_iff]
  constructor
  · rintro ⟨c, hret, -⟩
    exact ⟨c, hret⟩
  · rintro ⟨c, fuel, hc⟩
    exact ⟨c, ⟨fuel, hc⟩, calcCost_best hpos hfit (hc fuel (le_refl _))⟩

end CalcCost

/-! ## `calc_transport_cost` -/

section Transport

variable {db : UidDB} {p : UInt16} {dest tportId : ℕ} {set : AdjacencySpace}

/-- A link of another user. -/
def EdgeAway (db : UidDB) (p : UInt16) (a b k : ℕ) : Prop := a ≠ 0 ∧ db.Edge p a b k

/-- A path begins with a link over the transport of `set`. -/
def OverTransport (p : UInt16) (set : AdjacencySpace) (a c : ℕ) : Prop :=
  a ∈ set.members ∧ c = (set.cost.get p).toNat

/-- A path over a transport that has not come back is one from this node. -/
theorem trail_of_transport (hlt : tportId < db.adjacencyCount 0)
    (hset : db.adjacencySet 0 tportId = some set) {vs : List ℕ} {a c : ℕ}
    (h : Trail (db.EdgeAway p) (OverTransport p set) (fun _ => 0) vs a c) (ha : a ≠ 0) :
    Trail (db.Edge p) (FromUser 0) (fun _ => 0) (vs ++ [0]) a c := by
  induction h with
  | @start a c hstart _ =>
    obtain ⟨hmem, rfl⟩ := hstart
    have hedge : db.Edge p 0 a (set.cost.get p).toNat :=
      ⟨set, db.mem_entries.mpr ⟨tportId, hlt, hset, hmem⟩, rfl⟩
    have hfirst : Trail (db.Edge p) (FromUser 0) (fun _ => 0) [0] 0 0 :=
      .start ⟨rfl, rfl⟩ (Nat.zero_le 0)
    have htrail := hfirst.step hedge (by simpa using ha) (Nat.zero_le _)
    rwa [Nat.zero_add] at htrail
  | step _ hedge hnew _ ih =>
    exact (ih hedge.1).step hedge.2 (by simp [hnew, ha]) (Nat.zero_le _)

theorem searchPaths_transport (hpos : db.PosCost p) (hfit : db.SumsFit p)
    (hlt : tportId < db.adjacencyCount 0) (hset : db.adjacencySet 0 tportId = some set) :
    SearchPaths db p (db.EdgeAway p) (OverTransport p set) (fun a => a = 0) where
  edge := Iff.rfl
  pos a b k hedge := hpos a b k hedge.2
  fits htrail hedge := hfit 0 _ _ _ _ _ (trail_of_transport hlt hset htrail hedge.1) hedge.2
  start_lt := by
    rintro a c ⟨-, rfl⟩
    exact UInt32.toNat_lt _

theorem le_maximum (d : UInt32) : d ≤ COST_MAXIMUM := by
  have hlt := d.toNat_lt
  have hmax : COST_MAXIMUM.toNat = 2 ^ 32 - 1 := by decide
  rw [UInt32.le_iff_toNat_le, hmax]
  omega

theorem sound_startTransport (hself : 0 ∉ set.members) (hdest : dest ∉ set.members) :
    Sound (db.EdgeAway p) (OverTransport p set) (fun a => a = 0) dest (startTransport p set) := by
  have htask : ∀ task ∈ (startTransport p set).todo, ∃ b ∈ set.members,
      task = .push b (set.cost.get p) := by
    intro task hmem
    obtain ⟨b, hb, rfl⟩ := List.mem_map.mp hmem
    exact ⟨b, BitSpace.mem_toList.mp hb, rfl⟩
  refine ⟨by simp [startTransport], ?_, ?_, ?_, ?_, Or.inl rfl, ?_⟩
  · intro uid dist hmem
    obtain ⟨b, hb, heq⟩ := htask _ hmem
    cases heq
    have hzero : uid ≠ 0 := by
      rintro rfl
      exact hself hb
    refine ⟨⟨hb, rfl⟩, hzero, ?_, ?_⟩
    · rintro rfl
      exact hdest hb
    · simp only [startTransport, Function.update_of_ne hzero]
      exact le_maximum _
  · intro uid dist hmem task hmem'
    obtain ⟨b, -, heq⟩ := htask _ hmem
    cases heq
    obtain ⟨b', -, heq⟩ := htask _ hmem'
    exact ⟨b', heq⟩
  · intro uid dist hmem
    obtain ⟨b, -, heq⟩ := htask _ hmem
    cases heq
  · intro dist hmem
    obtain ⟨b, -, heq⟩ := htask _ hmem
    cases heq
  · rintro uid rfl
    simp [startTransport]

theorem complete_startTransport :
    Complete (db.EdgeAway p) (OverTransport p set) dest (startTransport p set) := by
  refine ⟨?_, ?_, ?_⟩
  · rintro a c ⟨hmem, rfl⟩
    refine Or.inr (Or.inr ⟨.push a (set.cost.get p), ?_, rfl, le_refl _⟩)
    exact List.mem_map.mpr ⟨a, BitSpace.mem_toList.mpr hmem, rfl⟩
  · intro dist hmem
    obtain ⟨b, -, heq⟩ := List.mem_map.mp hmem
    cases heq
  · rintro a b k ha ⟨hzero, -⟩
    refine Or.inr (Or.inl ?_)
    simp [startTransport, Function.update_of_ne hzero]

/-- No path over the transport costs less than the transport. -/
theorem transport_le {v c : ℕ} (h : Arrives (db.EdgeAway p) (OverTransport p set) v c) :
    (set.cost.get p).toNat ≤ c := by
  induction h with
  | start hstart => exact hstart.2.ge
  | step _ _ ih => exact Nat.le_trans ih (Nat.le_add_right _ _)

/-- `calc_transport_cost` returns no other cost than the least. -/
theorem calcTransportCost_best (hpos : db.PosCost p) (hfit : db.SumsFit p)
    (hlt : tportId < db.adjacencyCount 0) (hset : db.adjacencySet 0 tportId = some set)
    (hself : 0 ∉ set.members) {fuel : ℕ} {c : UInt32}
    (h : db.calcTransportCost p dest fuel tportId = some (.cost c)) :
    Best (db.EdgeAway p) (OverTransport p set) dest c := by
  unfold calcTransportCost at h
  simp only [hset] at h
  split at h
  · next hdest =>
      cases h
      exact Or.inl ⟨.start ⟨hdest, rfl⟩, fun c' harr => transport_le harr⟩
  · next hdest =>
      exact searchCost_best (searchPaths_transport hpos hfit hlt hset) fuel
        (sound_startTransport hself hdest) complete_startTransport h

theorem calcTransportCost_returns_iff (hset : db.adjacencySet 0 tportId = some set) :
    (∃ c, Returns (fun fuel => db.calcTransportCost p dest fuel tportId) c) ↔
      (dest ∉ set.members → db.StackFits p dest (startTransport p set)) := by
  unfold calcTransportCost
  simp only [hset]
  by_cases hdest : dest ∈ set.members
  · simp only [hdest, if_true, not_true, false_implies, iff_true]
    exact ⟨set.cost.get p, 0, fun _ _ => rfl⟩
  · simp only [hdest, if_false, not_false_eq_true, forall_const]
    exact searchCost_returns_iff rfl

/-- **`calc_transport_cost` returns the least cost of a path over the transport** that does not
go through this node again, if its search has room. -/
theorem calcTransportCost_least_iff (hpos : db.PosCost p) (hfit : db.SumsFit p)
    (hlt : tportId < db.adjacencyCount 0) (hset : db.adjacencySet 0 tportId = some set)
    (hself : 0 ∉ set.members) :
    (∃ c, Returns (fun fuel => db.calcTransportCost p dest fuel tportId) c ∧
      Best (db.EdgeAway p) (OverTransport p set) dest c) ↔
        (dest ∉ set.members → db.StackFits p dest (startTransport p set)) := by
  rw [← calcTransportCost_returns_iff hset]
  constructor
  · rintro ⟨c, hret, -⟩
    exact ⟨c, hret⟩
  · rintro ⟨c, fuel, hc⟩
    exact ⟨c, ⟨fuel, hc⟩, calcTransportCost_best hpos hfit hlt hset hself (hc fuel (le_refl _))⟩

end Transport

end UidDB

/-! ## The tree of this node -/

namespace LinkDB

variable {db : LinkDB} {list : List ℕ}

theorem listIdx_lt (hne : list ≠ []) (uid : ℕ) : listIdx list uid < list.length := by
  unfold listIdx
  split
  · next hmem => exact List.idxOf_lt_length_of_mem hmem
  · exact List.length_pos_iff.mpr hne

theorem zero_mem (h : db.SortedUsers list) : 0 ∈ list :=
  h.perm.mem_iff.mpr List.mem_cons_self

theorem built_addGraphUsers (pathLimit : ℕ) : (db.addGraphUsers list pathLimit).1.Built := by
  unfold addGraphUsers
  induction list using List.reverseRecOn with
  | nil => exact .empty pathLimit
  | append_singleton list uid ih =>
    rw [List.foldl_append]
    exact .addUser _ _ ih

theorem built_foldl_addLink (calls : List LinkArgs) {g : AdjGraph} (hg : g.Built)
    (hcalls : ∀ c ∈ calls, c.u1 < g.userTab.length ∧ c.u2 < g.userTab.length) :
    (calls.foldl AdjGraph.addLinkCall g).Built := by
  induction calls generalizing g with
  | nil => exact hg
  | cons c calls ih =>
    obtain ⟨hu1, hu2⟩ := hcalls c List.mem_cons_self
    have hlen : (g.addLinkCall c).userTab.length = g.userTab.length := by
      simp [AdjGraph.addLinkCall, AdjGraph.addLink]
    refine ih (.addLink _ _ _ _ hg hu1 hu2) fun c' hc' => ?_
    rw [hlen]
    exact hcalls c' (List.mem_cons_of_mem _ hc')

theorem built_updateGraph (pathLimit : ℕ) (h : db.SortedUsers list) :
    (db.updateGraph list pathLimit).Built := by
  have hne : list ≠ [] := List.ne_nil_of_mem (zero_mem h)
  have husers := addGraphUsers_eq db pathLimit h.nodup
  have hbuilt : (db.addGraphUsers list pathLimit).1.Built := built_addGraphUsers pathLimit
  rw [husers] at hbuilt
  rw [updateGraph_eq db pathLimit h.nodup]
  refine built_foldl_addLink _ hbuilt fun c hc => ?_
  obtain ⟨⟨uid, i⟩, hui, hc⟩ := List.mem_flatMap.mp hc
  have hi := (List.getElem?_eq_some_iff.mp (List.mem_zipIdx_iff_getElem?.mp hui)).1
  obtain ⟨t, -, hc⟩ := List.mem_flatMap.mp hc
  split at hc
  · simp at hc
  · obtain ⟨b, -, rfl⟩ := List.mem_map.mp hc
    simp only [List.length_map]
    exact ⟨hi, listIdx_lt hne b⟩

end LinkDB

namespace UidDB

section Tree

variable {db : UidDB} {p : UInt16} {list : List ℕ} {pathLimit : ℕ}

open LinkDB WeightedDigraph LabelSearch

theorem exists_userLink {idx : ℕ → ℕ} {i uid j : ℕ} {cost : AdjCost} :
    (∃ c ∈ db.userLinks idx i uid, c.u2 = j ∧ c.cost = cost) ↔
      ∃ set b, (set, b) ∈ db.entries uid ∧ idx b = j ∧ set.cost = cost := by
  constructor
  · rintro ⟨c, hc, rfl, rfl⟩
    obtain ⟨t, ht, hc⟩ := List.mem_flatMap.mp hc
    split at hc
    · simp at hc
    · next set hset =>
        obtain ⟨b, hb, rfl⟩ := List.mem_map.mp hc
        refine ⟨set, b, db.mem_entries.mpr ⟨t, List.mem_range.mp ht, hset, ?_⟩, rfl, rfl⟩
        exact BitSpace.mem_toList.mp hb
  · rintro ⟨set, b, hentry, rfl, rfl⟩
    obtain ⟨t, ht, hset, hb⟩ := db.mem_entries.mp hentry
    refine ⟨⟨i, idx b, nameOf set.tport, nameOf set.tportType, set.cost, t⟩, ?_, rfl, rfl⟩
    refine List.mem_flatMap.mpr ⟨t, List.mem_range.mpr ht, ?_⟩
    rw [show (db.adjacencyOf uid).ptr t = some set from hset]
    exact List.mem_map.mpr ⟨b, BitSpace.mem_toList.mpr hb, rfl⟩

/-- The links of the graph are those of the sets. -/
theorem edge_updateGraph (h : list.Nodup) {i uid j k : ℕ} (hi : list[i]? = some uid) :
    (db.updateGraph list pathLimit).Edge p i j k ↔
      ∃ b, db.Edge p uid b k ∧ listIdx list b = j := by
  have hlinks := @linkCosts_updateGraph db.toLinkDB pathLimit list h i uid hi
  constructor
  · rintro ⟨l, hl, rfl, rfl⟩
    have hmem := List.mem_map_of_mem (f := fun l => (l.b, l.tid, l.cost)) hl
    rw [hlinks] at hmem
    obtain ⟨c, hc, heq⟩ := List.mem_map.mp hmem
    obtain ⟨hb, hrest⟩ := Prod.mk.inj heq
    obtain ⟨set, b, hentry, hidx, hcost⟩ :=
      exists_userLink.mp ⟨c, hc, hb, (Prod.mk.inj hrest).2⟩
    refine ⟨b, ⟨set, hentry, ?_⟩, hidx⟩
    rw [hcost]
  · rintro ⟨b, ⟨set, hentry, rfl⟩, rfl⟩
    obtain ⟨c, hc, hu2, hcost⟩ := (exists_userLink (i := i)).mpr ⟨set, b, hentry, rfl, rfl⟩
    have hmem := List.mem_map_of_mem (f := fun c : LinkArgs => (c.u2, c.tid, c.cost)) hc
    rw [← hlinks] at hmem
    obtain ⟨l, hl, heq⟩ := List.mem_map.mp hmem
    obtain ⟨hb, hrest⟩ := Prod.mk.inj heq
    refine ⟨l, hl, hb.trans hu2, ?_⟩
    rw [(Prod.mk.inj hrest).2, hcost]

theorem getElem?_listIdx {uid : ℕ} (h : uid ∈ list) : list[listIdx list uid]? = some uid := by
  rw [listIdx, if_pos h, List.getElem?_idxOf h]

theorem listIdx_inj {a b : ℕ} (ha : a ∈ list) (hb : b ∈ list)
    (h : listIdx list a = listIdx list b) : a = b := by
  have hget := getElem?_listIdx ha
  rw [h, getElem?_listIdx hb] at hget
  exact (Option.some.inj hget).symm

/-- The user that `update_graph` takes a member for: the oldest, if it is not listed. -/
def takenAs (list : List ℕ) (b : ℕ) : ℕ := if b ∈ list then b else list.headD 0

/-- A link as `update_graph` takes it. -/
def TakenEdge (db : UidDB) (list : List ℕ) (p : UInt16) (a b k : ℕ) : Prop :=
  ∃ b', db.Edge p a b' k ∧ takenAs list b' = b

theorem takenAs_mem (hs : db.SortedUsers list) (b : ℕ) : takenAs list b ∈ list := by
  unfold takenAs
  split
  · assumption
  · cases hlist : list with
    | nil => exact absurd (zero_mem hs) (by simp [hlist])
    | cons a rest => exact List.mem_cons_self

theorem listIdx_takenAs (hs : db.SortedUsers list) (b : ℕ) :
    listIdx list (takenAs list b) = listIdx list b := by
  by_cases hb : b ∈ list
  · rw [takenAs, if_pos hb]
  · rw [takenAs, if_neg hb]
    cases hlist : list with
    | nil => exact absurd (zero_mem hs) (by simp [hlist])
    | cons a rest =>
      rw [hlist] at hb
      simp [listIdx, hb]

theorem mem_list_of_walk (hs : db.SortedUsers list) {a c : ℕ}
    (h : Walk (db.TakenEdge list p) 0 a c) : a ∈ list := by
  cases h with
  | nil => exact zero_mem hs
  | snoc _ hedge =>
    obtain ⟨b, -, rfl⟩ := hedge
    exact takenAs_mem hs b

/-- The walks of the graph from this node are those over the sets, with the links as they are
taken. -/
theorem walk_updateGraph_iff (hs : db.SortedUsers list) {j c : ℕ} :
    Walk ((db.updateGraph list pathLimit).Edge p) (listIdx list 0) j c ↔
      ∃ a ∈ list, listIdx list a = j ∧ Walk (db.TakenEdge list p) 0 a c := by
  constructor
  · intro h
    induction h with
    | nil => exact ⟨0, zero_mem hs, rfl, .nil⟩
    | snoc _ hedge ih =>
      obtain ⟨a, ha, rfl, hwalk⟩ := ih
      obtain ⟨b, hab, hb⟩ := (edge_updateGraph hs.nodup (getElem?_listIdx ha)).mp hedge
      refine ⟨takenAs list b, takenAs_mem hs b, ?_, hwalk.snoc ⟨b, hab, rfl⟩⟩
      rw [listIdx_takenAs hs, hb]
  · rintro ⟨a, -, rfl, h⟩
    induction h with
    | nil => exact .nil
    | snoc hwalk hedge ih =>
      obtain ⟨b, hab, rfl⟩ := hedge
      have ha := mem_list_of_walk hs hwalk
      refine ih.snoc ((edge_updateGraph hs.nodup (getElem?_listIdx ha)).mpr ⟨b, hab, ?_⟩)
      exact (listIdx_takenAs hs b).symm

theorem isDist_updateGraph_iff (hs : db.SortedUsers list) {a c : ℕ} (ha : a ∈ list) :
    IsDist ((db.updateGraph list pathLimit).Edge p) (listIdx list 0) (listIdx list a) c ↔
      IsDist (db.TakenEdge list p) 0 a c := by
  have hwalk : ∀ c, Walk ((db.updateGraph list pathLimit).Edge p) (listIdx list 0)
      (listIdx list a) c ↔ Walk (db.TakenEdge list p) 0 a c := by
    intro c
    rw [walk_updateGraph_iff hs]
    constructor
    · rintro ⟨a', ha', heq, h⟩
      rwa [listIdx_inj ha' ha heq] at h
    · intro h
      exact ⟨a, ha, rfl, h⟩
  unfold IsDist
  simp only [hwalk]

theorem posCost_updateGraph (hs : db.SortedUsers list) (hpos : db.PosCost p) :
    (db.updateGraph list pathLimit).PosCost p := by
  intro i l hl
  have hlt : i < list.length := by
    have h := AdjGraph.lt_length_of_mem_links hl
    rwa [← List.length_map AdjUser.uid, uids_updateGraph pathLimit hs.nodup] at h
  have hi : list[i]? = some (list.get ⟨i, hlt⟩) := List.getElem?_eq_getElem hlt
  obtain ⟨b, hedge, -⟩ := (edge_updateGraph hs.nodup hi).mp ⟨l, hl, rfl, rfl⟩
  exact hpos _ _ _ hedge

/-- No sum over the links as they are taken is past 32 bits. -/
def TakenSumsFit (db : UidDB) (list : List ℕ) (p : UInt16) : Prop :=
  ∀ vs a c b k, Trail (db.TakenEdge list p) (FromUser 0) (fun _ => 0) vs a c →
    db.Edge p a b k → c + k < 2 ^ 32

theorem noWrap_updateGraph (hs : db.SortedUsers list) (hfit : db.TakenSumsFit list p) :
    (db.updateGraph list pathLimit).NoWrap p (listIdx list 0) := by
  intro i d e l hd hl _ _
  obtain ⟨a, ha, rfl, hwalk⟩ := (walk_updateGraph_iff hs).mp hd.1
  have hdist := (isDist_updateGraph_iff hs ha).mp hd
  obtain ⟨b, hedge, -⟩ :=
    (edge_updateGraph hs.nodup (getElem?_listIdx ha)).mp ⟨l, hl, rfl, rfl⟩
  -- a shortest path meets nobody twice
  obtain ⟨vs, c, htrail, hle⟩ := (arrives_iff_walk.mpr hwalk).trail
  have hge := hdist.2 c (arrives_iff_walk.mp htrail.arrives)
  obtain rfl : c = d := Nat.le_antisymm hle hge
  exact hfit vs a c b _ htrail hedge

/-- The cost that a forwarding set has for a uid. -/
def fwdCost (g : AdjGraph) (fwd : List AdjFwd) (uid : ℕ) : UInt32 :=
  ((fwd.find? fun e => g.uidOf e.link.b = uid).map AdjFwd.cost).getD COST_MAXIMUM

/-- **The tree of this node has the least costs** over the links as they are taken. -/
theorem fwdCost_best (hs : db.SortedUsers list) (hpos : db.PosCost p)
    (hfit : db.TakenSumsFit list p) (H : AdjHash) {dest : ℕ} (hdest : dest ≠ 0) :
    Best (db.TakenEdge list p) (FromUser 0) dest (fwdCost (db.updateGraph list pathLimit)
      ((db.updateGraph list pathLimit).forwardSet H p (listIdx list 0)) dest) := by
  set g := db.updateGraph list pathLimit with hg
  have hroot : listIdx list 0 < g.userTab.length := by
    rw [← List.length_map AdjUser.uid, uids_updateGraph pathLimit hs.nodup]
    exact listIdx_lt (List.ne_nil_of_mem (zero_mem hs)) 0
  have htree : ShortestPathTree g p (listIdx list 0) (g.forwardSet H p (listIdx list 0)) :=
    forwardSet_shortestPathTree H (built_updateGraph pathLimit hs) hroot
      (posCost_updateGraph hs hpos) (noWrap_updateGraph hs hfit)
  unfold fwdCost
  cases hfind : (g.forwardSet H p (listIdx list 0)).find? fun e => g.uidOf e.link.b = dest with
  | some e =>
    have he := List.mem_of_find?_eq_some hfind
    have huid : g.uidOf e.link.b = dest := by simpa using List.find?_some hfind
    have hdist := htree.cost e he
    obtain ⟨a, ha, hidx, hwalk⟩ := (walk_updateGraph_iff hs).mp hdist.1
    rw [← hidx, uidOf_listIdx pathLimit hs.nodup ha] at huid
    subst huid
    rw [← hidx, isDist_updateGraph_iff hs ha] at hdist
    refine Or.inl ⟨arrives_iff_walk.mpr hdist.1, fun c harr => ?_⟩
    exact hdist.2 c (arrives_iff_walk.mp harr)
  | none =>
    refine Or.inr ⟨fun c harr => ?_, rfl⟩
    have hwalk := arrives_iff_walk.mp harr
    have hmem := mem_list_of_walk hs hwalk
    -- the destination is reached, so the tree has it
    have hne : listIdx list dest ≠ listIdx list 0 :=
      fun heq => hdest (listIdx_inj hmem (zero_mem hs) heq)
    have hreach : WeightedDigraph.Reaches (g.Edge p) (listIdx list 0) (listIdx list dest) :=
      ⟨_, (walk_updateGraph_iff hs).mpr ⟨dest, hmem, rfl, hwalk⟩⟩
    obtain ⟨e, he, hb⟩ := (htree.spans _).mpr ⟨hne, hreach⟩
    have hnot := List.find?_eq_none.mp hfind e he
    rw [hb, hg, uidOf_listIdx pathLimit hs.nodup hmem] at hnot
    simp at hnot

/-- The destination is reached over the links as they are taken at no less cost than over the
links themselves, and at no more. -/
def SameLeast (db : UidDB) (list : List ℕ) (p : UInt16) (dest : ℕ) : Prop :=
  ∀ c < COST_MAXIMUM.toNat, (∃ c' ≤ c, Arrives (db.TakenEdge list p) (FromUser 0) dest c') ↔
    ∃ c' ≤ c, Arrives (db.Edge p) (FromUser 0) dest c'

theorem Best.le_iff {E : ℕ → ℕ → ℕ → Prop} {Start : ℕ → ℕ → Prop} {dest c : ℕ} {least : UInt32}
    (h : Best E Start dest least) (hc : c < COST_MAXIMUM.toNat) :
    (∃ c' ≤ c, Arrives E Start dest c') ↔ least.toNat ≤ c := by
  rcases h with ⟨harr, hleast⟩ | ⟨hnone, rfl⟩
  · constructor
    · rintro ⟨c', hle, harr'⟩
      exact Nat.le_trans (hleast c' harr') hle
    · exact fun hle => ⟨_, hle, harr⟩
  · constructor
    · rintro ⟨c', -, harr⟩
      exact absurd harr (hnone c')
    · exact fun hle => absurd hc (Nat.not_lt.mpr hle)

/-- Two least costs that are at most the same costs are the same. -/
theorem sameLeast_iff {dest : ℕ} {c c' : UInt32}
    (h : Best (db.TakenEdge list p) (FromUser 0) dest c)
    (h' : Best (db.Edge p) (FromUser 0) dest c') : db.SameLeast list p dest ↔ c = c' := by
  have hle : ∀ x < COST_MAXIMUM.toNat, ((∃ c' ≤ x, Arrives (db.TakenEdge list p) (FromUser 0)
      dest c') ↔ ∃ c' ≤ x, Arrives (db.Edge p) (FromUser 0) dest c') ↔
        (c.toNat ≤ x ↔ c'.toNat ≤ x) := by
    intro x hx
    rw [h.le_iff hx, h'.le_iff hx]
  constructor
  · intro hsame
    have hc := UInt32.le_iff_toNat_le.mp (le_maximum c)
    have hc' := UInt32.le_iff_toNat_le.mp (le_maximum c')
    have h₁ := fun hx => (hle c.toNat hx).mp (hsame c.toNat hx)
    have h₂ := fun hx => (hle c'.toNat hx).mp (hsame c'.toNat hx)
    exact UInt32.toNat_inj.mp (by omega)
  · rintro rfl x hx
    exact (hle x hx).mpr Iff.rfl

/-- A link from a listed user leads to a listed user. -/
theorem mem_list_of_edge (hs : db.SortedUsers list) (hlisted : db.MembersListed) {a b k : ℕ}
    (ha : a ∈ list) (hedge : db.Edge p a b k) : b ∈ list := by
  obtain ⟨set, hentry, -⟩ := hedge
  obtain ⟨t, ht, hset, hb⟩ := db.mem_entries.mp hentry
  exact hs.perm.mem_iff.mpr (hlisted a (hs.perm.mem_iff.mp ha) t ht set hset b hb)

/-- When every member is listed, the links are taken as they are. -/
theorem sameLeast_of_membersListed (hs : db.SortedUsers list) (hlisted : db.MembersListed)
    (dest : ℕ) : db.SameLeast list p dest := by
  have hwalk : ∀ a c, Walk (db.TakenEdge list p) 0 a c ↔ Walk (db.Edge p) 0 a c := by
    intro a c
    constructor
    · intro h
      induction h with
      | nil => exact .nil
      | snoc hwalk hedge ih =>
        obtain ⟨b, hab, rfl⟩ := hedge
        have hb := mem_list_of_edge hs hlisted (mem_list_of_walk hs hwalk) hab
        rw [takenAs, if_pos hb]
        exact ih.snoc hab
    · intro h
      induction h with
      | nil => exact .nil
      | snoc _ hedge ih =>
        have hb := mem_list_of_edge hs hlisted (mem_list_of_walk hs ih) hedge
        exact ih.snoc ⟨_, hedge, if_pos hb⟩
  have harr : ∀ E c, Arrives E (FromUser 0) dest c ↔ Walk E 0 dest c :=
    fun _ _ => arrives_iff_walk
  intro c _
  simp only [harr, hwalk]

/-- **`calc_cost` of this node returns the cost of its tree** if its search has room, and the
links that are not taken as they are make no difference. -/
theorem calcCost_tree_iff (hs : db.SortedUsers list) (hpos : db.PosCost p) (hfit : db.SumsFit p)
    (htaken : db.TakenSumsFit list p) (H : AdjHash) {dest : ℕ} (hdest : dest ≠ 0) :
    Returns (fun fuel => db.calcCost p dest fuel 0) (fwdCost (db.updateGraph list pathLimit)
      ((db.updateGraph list pathLimit).forwardSet H p (listIdx list 0)) dest) ↔
      db.StackFits p dest (db.startCost p 0) ∧ db.SameLeast list p dest := by
  have htree := @fwdCost_best db p list pathLimit hs hpos htaken H dest hdest
  have hret := @calcCost_returns_iff db p dest 0
  rw [ne_eq, eq_comm, ← ne_eq, forall_prop_of_true hdest] at hret
  constructor
  · intro h
    obtain ⟨fuel, hc⟩ := h
    refine ⟨hret.mp ⟨_, fuel, hc⟩, ?_⟩
    exact (sameLeast_iff htree (calcCost_best hpos hfit (hc fuel (le_refl _)))).mpr rfl
  · rintro ⟨hroom, hsame⟩
    obtain ⟨c, fuel, hc⟩ := hret.mpr hroom
    have hbest : Best (db.Edge p) (FromUser 0) dest c :=
      calcCost_best hpos hfit (hc fuel (le_refl _))
    rw [(sameLeast_iff htree hbest).mp hsame]
    exact ⟨fuel, hc⟩

end Tree

/-! ## `calc_transport_cache` -/

/-- The arguments of a call. -/
structure CostQuery where
  destUid : ℕ
  tportId : ℕ
  pathSelect : UInt16

/-- `cache_ht`: the costs by the hash of their index. -/
abbrev CostCache := UInt32 → Option UInt32

variable (db : UidDB) (hash : UInt32 → UInt32)

/-- `idx`, an `uint64_t`. -/
def costIndex (q : CostQuery) : ℕ :=
  (q.pathSelect.toNat * db.nextUid * db.adjacencyCount 0 + q.tportId * db.nextUid + q.destUid) %
    2 ^ 64

/-- `h`: zero when the index has more than 32 bits. -/
def cacheHash (q : CostQuery) : UInt32 :=
  if db.costIndex q ≤ 0xffffffff then hash (UInt32.ofNat (db.costIndex q)) else 0

/-- `calc_transport_cost` with the arguments of a query. -/
def queryCost (fuel : ℕ) (q : CostQuery) : Option Outcome :=
  db.calcTransportCost q.pathSelect q.destUid fuel q.tportId

/-- `cache_ht->find`, for an index of 32 bits. -/
def findCache (cache : CostCache) (q : CostQuery) : Option UInt32 :=
  if db.costIndex q ≤ 0xffffffff then cache (db.cacheHash hash q) else none

/-- `cache_ht->set_rsz` -/
def setCache (cache : CostCache) (q : CostQuery) (val : UInt32) : CostCache :=
  if db.cacheHash hash q ≠ 0 then Function.update cache (db.cacheHash hash q) (some val) else cache

/-- `calc_transport_cache`, after `clear_cache_if_dirty`. -/
def calcTransportCache (fuel : ℕ) (cache : CostCache) (q : CostQuery) :
    Option (Outcome × CostCache) :=
  match db.findCache hash cache q with
  | some val => some (.cost val, cache)
  | none =>
    match db.queryCost fuel q with
    | some (.cost val) => some (.cost val, db.setCache hash cache q val)
    | some .overflow => some (.overflow, cache)
    | none => none

/-- What the calls return, one after the other. -/
def runQueries (fuel : ℕ) : CostCache → List CostQuery → Option (List Outcome)
  | _, [] => some []
  | cache, q :: qs =>
    match db.calcTransportCache hash fuel cache q with
    | none => none
    | some (o, cache) => (runQueries fuel cache qs).map (o :: ·)

/-- A call for a transport and a user of this node, whose index is not past 64 bits. -/
structure Indexed (q : CostQuery) : Prop where
  tport : q.tportId < db.adjacencyCount 0
  dest : q.destUid < db.nextUid
  fits : q.pathSelect.toNat * db.nextUid * db.adjacencyCount 0 + q.tportId * db.nextUid +
    q.destUid < 2 ^ 64

/-- Every cost in the cache is one that `calc_transport_cost` returned. -/
def CacheOk (fuel : ℕ) (cache : CostCache) : Prop :=
  ∀ h val, cache h = some val → ∃ q, db.Indexed q ∧ db.costIndex q ≤ 0xffffffff ∧
    h = hash (UInt32.ofNat (db.costIndex q)) ∧ db.queryCost fuel q = some (.cost val)

section Cache

variable {db : UidDB} {hash : UInt32 → UInt32} {fuel : ℕ} {cache : CostCache}

/-- The index tells the queries apart. -/
theorem costIndex_inj {q q' : CostQuery} (h : db.Indexed q) (h' : db.Indexed q')
    (heq : db.costIndex q = db.costIndex q') : q = q' := by
  obtain ⟨dest, tportId, pathSelect⟩ := q
  obtain ⟨dest', tportId', pathSelect'⟩ := q'
  obtain ⟨ht, hd, hfit⟩ := h
  obtain ⟨ht', hd', hfit'⟩ := h'
  simp only [costIndex, Nat.mod_eq_of_lt hfit, Nat.mod_eq_of_lt hfit'] at heq
  simp only at ht hd ht' hd'
  -- the last digit, the one before it and the first
  have hsplit : ∀ n t d, n * db.nextUid * db.adjacencyCount 0 + t * db.nextUid + d =
      d + db.nextUid * (t + db.adjacencyCount 0 * n) := by
    intro n t d
    ring
  rw [hsplit, hsplit] at heq
  have hpos : 0 < db.nextUid := Nat.lt_of_le_of_lt (Nat.zero_le _) hd
  have hpos' : 0 < db.adjacencyCount 0 := Nat.lt_of_le_of_lt (Nat.zero_le _) ht
  have hmod := congrArg (· % db.nextUid) heq
  have hdiv := congrArg (· / db.nextUid) heq
  simp only [Nat.add_mul_mod_self_left, Nat.mod_eq_of_lt hd, Nat.mod_eq_of_lt hd'] at hmod
  simp only [Nat.add_mul_div_left _ _ hpos, Nat.div_eq_of_lt hd, Nat.div_eq_of_lt hd',
    Nat.zero_add] at hdiv
  have hmod' := congrArg (· % db.adjacencyCount 0) hdiv
  have hdiv' := congrArg (· / db.adjacencyCount 0) hdiv
  simp only [Nat.add_mul_mod_self_left, Nat.mod_eq_of_lt ht, Nat.mod_eq_of_lt ht'] at hmod'
  simp only [Nat.add_mul_div_left _ _ hpos', Nat.div_eq_of_lt ht, Nat.div_eq_of_lt ht',
    Nat.zero_add] at hdiv'
  rw [hmod, hmod', UInt16.toNat_inj.mp hdiv']

/-- A cost that is found is that of the query. -/
theorem CacheOk.find (hinj : Function.Injective hash) (h : db.CacheOk hash fuel cache)
    {q : CostQuery} {val : UInt32} (hq : db.Indexed q)
    (hfind : db.findCache hash cache q = some val) : db.queryCost fuel q = some (.cost val) := by
  unfold findCache at hfind
  split at hfind
  · next hle =>
      obtain ⟨q', hq', hle', heq, hcost⟩ := h _ val hfind
      rw [cacheHash, if_pos hle] at heq
      have hnat := congrArg UInt32.toNat (hinj heq)
      rw [UInt32.toNat_ofNat', UInt32.toNat_ofNat', Nat.mod_eq_of_lt (Nat.lt_succ_of_le hle),
        Nat.mod_eq_of_lt (Nat.lt_succ_of_le hle')] at hnat
      rwa [costIndex_inj hq hq' hnat]
  · cases hfind

theorem CacheOk.set (h : db.CacheOk hash fuel cache) {q : CostQuery} {val : UInt32}
    (hq : db.Indexed q) (hcost : db.queryCost fuel q = some (.cost val)) :
    db.CacheOk hash fuel (db.setCache hash cache q val) := by
  unfold setCache
  split
  · next hne =>
      intro k v hk
      rcases eq_or_ne k (db.cacheHash hash q) with rfl | hk'
      · rw [Function.update_self] at hk
        cases hk
        by_cases hle : db.costIndex q ≤ 0xffffffff
        · exact ⟨q, hq, hle, by rw [cacheHash, if_pos hle], hcost⟩
        · exact absurd (by rw [cacheHash, if_neg hle]) hne
      · rw [Function.update_of_ne hk'] at hk
        exact h k v hk
  · exact h

/-- **The cache returns what `calc_transport_cost` returns**, in every order of the calls. -/
theorem runQueries_eq (hinj : Function.Injective hash) (h : db.CacheOk hash fuel cache)
    {qs : List CostQuery} (hq : ∀ q ∈ qs, db.Indexed q)
    (hcost : ∀ q ∈ qs, ∃ c, db.queryCost fuel q = some (.cost c)) :
    ∃ costs, db.runQueries hash fuel cache qs = some (costs.map .cost) ∧
      List.Forall₂ (fun q c => db.queryCost fuel q = some (.cost c)) qs costs := by
  induction qs generalizing cache with
  | nil => exact ⟨[], rfl, .nil⟩
  | cons q qs ih =>
    have hq₀ := hq q List.mem_cons_self
    obtain ⟨c, hc⟩ := hcost q List.mem_cons_self
    have hstep : ∃ cache', db.calcTransportCache hash fuel cache q = some (.cost c, cache') ∧
        db.CacheOk hash fuel cache' := by
      unfold calcTransportCache
      cases hfind : db.findCache hash cache q with
      | some val =>
        have hval := h.find hinj hq₀ hfind
        rw [hc] at hval
        cases hval
        exact ⟨cache, rfl, h⟩
      | none => exact ⟨_, by rw [hc], h.set hq₀ hc⟩
    obtain ⟨cache', hcall, hok⟩ := hstep
    obtain ⟨costs, hrun, hall⟩ := ih hok (fun q' h' => hq q' (List.mem_cons_of_mem _ h'))
      fun q' h' => hcost q' (List.mem_cons_of_mem _ h')
    exact ⟨c :: costs, by simp [runQueries, hcall, hrun], .cons hc hall⟩

theorem exists_of_forall₂ {qs : List CostQuery} {costs : List UInt32}
    {R : CostQuery → UInt32 → Prop} (h : List.Forall₂ R qs costs) {q : CostQuery} (hq : q ∈ qs) : ∃ c ∈ costs, R q c := by
  induction h with
  | nil => cases hq
  | cons hhead _ ih =>
    rcases List.mem_cons.mp hq with rfl | hq
    · exact ⟨_, List.mem_cons_self, hhead⟩
    · obtain ⟨c, hc, hr⟩ := ih hq
      exact ⟨c, List.mem_cons_of_mem _ hc, hr⟩

theorem queryCost_mono {fuel' : ℕ} {q : CostQuery} {o : Outcome} (hle : fuel ≤ fuel')
    (h : db.queryCost fuel q = some o) : db.queryCost fuel' q = some o := by
  unfold queryCost calcTransportCost at h ⊢
  split
  · next hset => simpa [hset] using h
  · next set hset =>
      simp only [hset] at h
      split
      · next hdest => rwa [if_pos hdest] at h
      · next hdest =>
          rw [if_neg hdest] at h
          exact searchCost_mono hle h

end Cache

end UidDB

/-! ## The costs agree -/

/-- A database in which this node is not connected to itself. -/
structure NodeDB extends UidDB where
  not_own_member : ∀ t set, (toLinkDB.adjacencyOf 0).ptr t = some set → 0 ∉ set.members

namespace NodeDB

open UidDB LabelSearch

/-- The search of `calc_cost` has room. -/
def CostFits (db : NodeDB) (p : UInt16) (src dest : ℕ) : Prop :=
  src ≠ dest → db.StackFits p dest (db.startCost p src)

/-- The search of `calc_transport_cost` for a transport of this node has room. -/
def TransportFits (db : NodeDB) (p : UInt16) (dest tportId : ℕ) : Prop :=
  ∀ set, db.adjacencySet 0 tportId = some set →
    dest ∉ set.members → db.StackFits p dest (startTransport p set)

/-- When the calls return the least costs, the tree of this node has the same ones, and the cache
returns what the search returns. -/
structure CostsAgree (db : NodeDB) (hash : UInt32 → UInt32) (p : UInt16) : Prop where
  cost : ∀ src dest, (∃ c, Returns (fun fuel => db.calcCost p dest fuel src) c ∧
    Best (db.Edge p) (FromUser src) dest c) ↔ db.CostFits p src dest
  transport : ∀ dest tportId set, tportId < db.adjacencyCount 0 →
    db.adjacencySet 0 tportId = some set →
    ((∃ c, Returns (fun fuel => db.calcTransportCost p dest fuel tportId) c ∧
      Best (db.EdgeAway p) (OverTransport p set) dest c) ↔ db.TransportFits p dest tportId)
  tree : ∀ list pathLimit H dest, db.SortedUsers list → db.TakenSumsFit list p → dest ≠ 0 →
    (Returns (fun fuel => db.calcCost p dest fuel 0)
      (fwdCost (db.updateGraph list pathLimit)
        ((db.updateGraph list pathLimit).forwardSet H p (LinkDB.listIdx list 0)) dest) ↔
      db.CostFits p 0 dest ∧ db.SameLeast list p dest)
  cache : ∀ qs : List CostQuery,
    (∀ q ∈ qs, db.Indexed q ∧ (db.adjacencySet 0 q.tportId).isSome) →
    ((∃ fuel₀, ∀ fuel ≥ fuel₀, ∃ costs,
      db.runQueries hash fuel (fun _ => none) qs = some (costs.map .cost) ∧
        List.Forall₂ (fun q c => db.queryCost fuel q = some (.cost c)) qs costs) ↔
      ∀ q ∈ qs, db.TransportFits q.pathSelect q.destUid q.tportId)

/-- Enough fuel for all the calls. -/
theorem exists_fuel {db : UidDB} {qs : List CostQuery}
    (h : ∀ q ∈ qs, ∃ c, Returns (fun fuel => db.queryCost fuel q) c) :
    ∃ fuel₀, ∀ fuel ≥ fuel₀, ∀ q ∈ qs, ∃ c, db.queryCost fuel q = some (.cost c) := by
  induction qs with
  | nil => exact ⟨0, by simp⟩
  | cons q qs ih =>
    obtain ⟨n, hn⟩ := ih fun q' hq' => h q' (List.mem_cons_of_mem _ hq')
    obtain ⟨c, m, hm⟩ := h q List.mem_cons_self
    refine ⟨max n m, fun fuel hfuel q' hq' => ?_⟩
    rcases List.mem_cons.mp hq' with rfl | hq'
    · exact ⟨c, hm fuel (Nat.le_trans (Nat.le_max_right n m) hfuel)⟩
    · exact hn fuel (Nat.le_trans (Nat.le_max_left n m) hfuel) q' hq'

theorem transportFits_iff {db : NodeDB} {p : UInt16} {dest tportId : ℕ} {set : AdjacencySpace}
    (hset : db.adjacencySet 0 tportId = some set) : db.TransportFits p dest tportId ↔
      (dest ∉ set.members → db.StackFits p dest (startTransport p set)) := by
  simp [TransportFits, hset]

theorem trail_length_le {E : ℕ → ℕ → ℕ → Prop} {src n : ℕ} (hlt : ∀ a b k, E a b k → b < n)
    {vs : List ℕ} {a c : ℕ} (h : Trail E (FromUser src) (fun _ => 0) vs a c) :
    vs.length ≤ n + 1 := by
  have hnodup : vs.Nodup := by
    induction h with
    | start _ _ => exact List.nodup_singleton _
    | step _ _ hnew _ ih => exact List.nodup_cons.mpr ⟨hnew, ih⟩
  have hsub : vs.toFinset ⊆ insert src (Finset.range n) := by
    intro v hv
    rw [List.mem_toFinset] at hv
    induction h with
    | start hstart _ =>
      obtain rfl := List.mem_singleton.mp hv
      exact Finset.mem_insert.mpr (Or.inl hstart.1)
    | step _ hedge _ _ ih =>
      rcases List.mem_cons.mp hv with rfl | hv
      · exact Finset.mem_insert_of_mem (Finset.mem_range.mpr (hlt _ _ _ hedge))
      · exact ih (List.nodup_cons.mp hnodup).2 hv
  calc vs.length = vs.toFinset.card := (List.toFinset_card_of_nodup hnodup).symm
    _ ≤ (insert src (Finset.range n)).card := Finset.card_le_card hsub
    _ ≤ n + 1 := by
        have hcard := Finset.card_insert_le src (Finset.range n)
        rwa [Finset.card_range] at hcard

/-- A sum fits when the costs are small. -/
theorem trail_sum_lt {E : ℕ → ℕ → ℕ → Prop} {src n bound : ℕ} (hlt : ∀ a b k, E a b k → b < n)
    (hle : ∀ a b k, E a b k → k ≤ bound) (hbound : (n + 1) * bound < 2 ^ 32) {vs : List ℕ}
    {a c k : ℕ} (h : Trail E (FromUser src) (fun _ => 0) vs a c) (hk : k ≤ bound) :
    c + k < 2 ^ 32 := by
  have hcost : c + bound ≤ vs.length * bound := by
    clear hk
    induction h with
    | start hstart _ => simp [hstart.2]
    | step _ hedge _ _ ih =>
      have hk := hle _ _ _ hedge
      rw [List.length_cons, Nat.succ_mul]
      omega
  have hmul := Nat.mul_le_mul_right bound (trail_length_le hlt h)
  omega

theorem lt_of_edge {db : UidDB} {p : UInt16} {a b k : ℕ} (h : db.Edge p a b k) :
    b < db.nextUid := by
  obtain ⟨set, hentry, -⟩ := h
  exact db.lt_of_mem_entries hentry

theorem lt_of_takenEdge {db : UidDB} {list : List ℕ} {p : UInt16}
    (hlist : ∀ uid ∈ list, uid < db.nextUid) {a b k : ℕ} (h : db.TakenEdge list p a b k) :
    b < db.nextUid := by
  obtain ⟨b', hedge, rfl⟩ := h
  unfold takenAs
  split
  · exact lt_of_edge hedge
  · cases list with
    | nil => exact db.nextUid_pos
    | cons uid rest => exact hlist uid List.mem_cons_self

/-- The sets of a user, each with its cost on all paths. -/
def setTab (sets : List (Finset ℕ × UInt32)) : AdjacencyTab :=
  ⟨sets.length, fun t => (sets[t]?).map fun s =>
    { AdjacencySpace.new with members := s.1, cost := AdjCost.const s.2 }⟩

theorem members_setTab {sets : List (Finset ℕ × UInt32)} {t : ℕ} {set : AdjacencySpace}
    (h : (setTab sets).ptr t = some set) : ∃ s ∈ sets, set.members = s.1 := by
  obtain ⟨s, hs, rfl⟩ := Option.map_eq_some_iff.mp h
  exact ⟨s, List.mem_of_getElem? hs, rfl⟩

/-- Users with their start times and their sets, this node first. A peer without is not
authenticated. -/
def ofUsers (me : ℕ × List (Finset ℕ × UInt32))
    (peers : List (Option (ℕ × List (Finset ℕ × UInt32))))
    (hlt : ∀ u ∈ me :: peers.filterMap id, ∀ s ∈ u.2, ∀ b ∈ s.1, b < peers.length + 1)
    (hown : ∀ s ∈ me.2, 0 ∉ s.1) : NodeDB where
  me := ⟨"", me.1, setTab me.2⟩
  peer uid := if uid = 0 then none else
    (peers[uid - 1]?).join.map fun u => ⟨"", u.1, setTab u.2⟩
  nextUid := peers.length + 1
  peer_lt := by
    intro uid h
    by_contra hge
    have hlen : peers.length ≤ uid - 1 := by omega
    split at h
    · cases h
    · simp [List.getElem?_eq_none hlen] at h
  nextUid_pos := Nat.succ_pos _
  members_lt := by
    intro uid t set hset b hb
    simp only [LinkDB.adjacencyOf, LinkDB.entry] at hset
    split at hset
    · obtain ⟨s, hs, heq⟩ := members_setTab hset
      exact hlt me List.mem_cons_self s hs b (heq ▸ hb)
    · cases hpeer : (peers[uid - 1]?).join with
      | none => simp [hpeer, AdjacencyTab.empty] at hset
      | some u =>
        rw [hpeer] at hset
        obtain ⟨s, hs, heq⟩ := members_setTab hset
        have hu : u ∈ peers.filterMap id := by
          refine List.mem_filterMap.mpr ⟨some u, ?_, rfl⟩
          exact List.mem_of_getElem? (Option.join_eq_some_iff.mp hpeer)
        exact hlt u (List.mem_cons_of_mem _ hu) s hs b (heq ▸ hb)
  not_own_member := by
    intro t set hset hmem
    obtain ⟨s, hs, heq⟩ := members_setTab hset
    exact hown s hs (heq ▸ hmem)

theorem edge_lt {db : UidDB} {p : UInt16} {a b k : ℕ} (h : db.Edge p a b k) :
    a < db.nextUid := by
  obtain ⟨set, hentry, -⟩ := h
  obtain ⟨t, ht, -, -⟩ := db.mem_entries.mp hentry
  by_contra hge
  rw [adjacencyCount_of_le (Nat.not_lt.mp hge)] at ht
  exact absurd ht (Nat.not_lt_zero t)

/-- The costs of a small network are at least one, and all sums fit. -/
theorem smallCosts {db : UidDB} {p : UInt16} (bound : ℕ)
    (h : ∀ a < db.nextUid, ∀ e ∈ db.entries a,
      1 ≤ (e.1.cost.get p).toNat ∧ (e.1.cost.get p).toNat ≤ bound)
    (hbound : (db.nextUid + 1) * bound < 2 ^ 32) :
    db.PosCost p ∧ db.SumsFit p ∧
      ∀ list, (∀ uid ∈ list, uid < db.nextUid) → db.TakenSumsFit list p := by
  have hedge : ∀ a b k, db.Edge p a b k → 1 ≤ k ∧ k ≤ bound := by
    intro a b k hab
    have hlt := edge_lt hab
    obtain ⟨set, hentry, rfl⟩ := hab
    exact h a hlt (set, b) hentry
  refine ⟨fun a b k hab => (hedge a b k hab).1, ?_, ?_⟩
  · intro src vs a c b k htrail hab
    exact trail_sum_lt (fun _ _ _ => lt_of_edge) (fun a b k hab => (hedge a b k hab).2) hbound
      htrail (hedge a b k hab).2
  · intro list hlist vs a c b k htrail hab
    refine trail_sum_lt (fun _ _ _ => lt_of_takenEdge hlist) ?_ hbound htrail (hedge a b k hab).2
    rintro a b k ⟨b', hab, -⟩
    exact (hedge a b' k hab).2

/-- This node with a dear link to `B` and a cheap one to `C`, which both lead to `D`; `C` is linked
to `B`, so that `B` is found again while it waits. -/
def diamondDB : NodeDB :=
  ofUsers (1, [({1}, 5), ({2}, 1)])
    [some (2, [({0}, 5), ({2}, 1), ({3}, 2)]), some (3, [({0}, 1), ({1}, 1), ({3}, 9)]),
      some (4, [({1}, 2), ({2}, 9)])] (by decide) (by decide)

theorem smallCosts_diamondDB : diamondDB.PosCost 0 ∧ diamondDB.SumsFit 0 ∧
    ∀ list, (∀ uid ∈ list, uid < 4) → diamondDB.TakenSumsFit list 0 :=
  smallCosts 9 (by decide) (by decide)

theorem membersListed_diamondDB : diamondDB.MembersListed := by
  intro uid _ t _ set hset b hb
  have hall : ∀ b < 4, b ∈ diamondDB.addUsers := by decide
  exact hall b (diamondDB.members_lt uid t set hset b hb)

theorem costFits_diamondDB : diamondDB.CostFits 0 0 3 :=
  fun _ => treeRoom_of_walk 9 (by decide) (by decide)

theorem transportFits_diamondDB : diamondDB.TransportFits 0 3 0 := by
  intro set hset _
  cases hset
  exact treeRoom_of_walk 9 (by decide) (by decide)

/-- This node with its links to `M` and to `O`, which is the oldest; a set of `M` has a user that
is gone. -/
def goneDB : NodeDB :=
  ofUsers (3, [({1}, 5), ({2}, 10)]) [some (2, [({3}, 1)]), some (1, []), none] (by decide)
    (by decide)

theorem smallCosts_goneDB : goneDB.PosCost 0 ∧ goneDB.SumsFit 0 ∧
    ∀ list, (∀ uid ∈ list, uid < 4) → goneDB.TakenSumsFit list 0 :=
  smallCosts 10 (by decide) (by decide)

end NodeDB

end Raims
