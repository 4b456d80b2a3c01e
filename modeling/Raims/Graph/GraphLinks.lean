import Raims.Graph.Flood
import Raims.Graph.UpdateGraph

/-!
# The links of the graph and the members of the sets

`update_graph` finds the head of a link through `graph_idx_order`, which is
filled in for the listed users and zero for the rest. A peer that is gone stays
in the adjacency sets of the others until they report it, and its entry of zero
is the index of the oldest user: the set gets a link to that user instead of
none.
-/

namespace Raims

namespace LinkDB

/-- Every member of a set of a listed user is listed. -/
def MembersListed (db : LinkDB) : Prop :=
  ∀ uid ∈ db.addUsers, ∀ t < (db.adjacencyOf uid).count, ∀ set,
    (db.adjacencyOf uid).ptr t = some set → ∀ b ∈ set.members, b ∈ db.addUsers

/-- The graph has one user for each listed bridge; the links of a user on one of
its transports lead to the listed members of that set, one to each, and it has
no other links. -/
structure ExactGraph (db : LinkDB) (g : AdjGraph) : Prop where
  users : (g.userTab.map AdjUser.uid).Perm db.addUsers
  links : ∀ i uid, (g.userTab.map AdjUser.uid)[i]? = some uid →
    ∀ t < (db.adjacencyOf uid).count, ∀ set,
    (db.adjacencyOf uid).ptr t = some set →
    (((g.links i).filter fun l => l.tid = t).map fun l => g.uidOf l.b).Perm
      ((BitSpace.toList set.members).filter fun b => b ∈ db.addUsers)
  member : ∀ i uid, (g.userTab.map AdjUser.uid)[i]? = some uid → ∀ l ∈ g.links i,
    l.tid < (db.adjacencyOf uid).count ∧ ∃ set,
      (db.adjacencyOf uid).ptr l.tid = some set ∧ g.uidOf l.b ∈ set.members

variable {db : LinkDB} {list : List ℕ}

/-- The index of a listed user leads back to its uid. -/
theorem uidOf_listIdx (pathLimit : ℕ) (h : list.Nodup) {b : ℕ} (hb : b ∈ list) :
    (db.updateGraph list pathLimit).uidOf (listIdx list b) = b := by
  have huid : ∀ i : ℕ, ((db.updateGraph list pathLimit).userTab[i]?).map AdjUser.uid =
      list[i]? := by
    intro i
    rw [← List.getElem?_map, uids_updateGraph pathLimit h]
  rw [AdjGraph.uidOf, huid, listIdx, if_pos hb, List.getElem?_idxOf hb]
  rfl

/-- The heads of the links of one transport, as indexes. -/
theorem heads_filter (pathLimit : ℕ) (h : list.Nodup) {i uid t : ℕ}
    (hi : list[i]? = some uid) (ht : t < (db.adjacencyOf uid).count)
    {set : AdjacencySpace} (hset : (db.adjacencyOf uid).ptr t = some set) :
    (((db.updateGraph list pathLimit).links i).filter fun l => l.tid = t).map
        AdjLink.b = (BitSpace.toList set.members).map (listIdx list) := by
  rw [← heads_updateGraph pathLimit h hi ht hset, List.filter_map, List.map_map]
  rfl

/-- Every link is made for a member of the set of its transport. -/
theorem member_of_mem_links (pathLimit : ℕ) (h : list.Nodup) {i uid : ℕ}
    (hi : list[i]? = some uid) {l : AdjLink}
    (hl : l ∈ (db.updateGraph list pathLimit).links i) :
    l.tid < (db.adjacencyOf uid).count ∧ ∃ set,
      (db.adjacencyOf uid).ptr l.tid = some set ∧
      ∃ b ∈ set.members, l.b = listIdx list b := by
  have hmem : (l.b, l.tid) ∈
      (db.userLinks (listIdx list) i uid).map fun c => (c.u2, c.tid) := by
    rw [← links_updateGraph pathLimit h hi]
    exact List.mem_map.mpr ⟨l, hl, rfl⟩
  obtain ⟨c, hc, heq⟩ := List.mem_map.mp hmem
  obtain ⟨hb, htid⟩ := Prod.mk.inj heq
  obtain ⟨t, ht, hc⟩ := List.mem_flatMap.mp hc
  split at hc
  · simp at hc
  · next set hset =>
      obtain ⟨b, hbm, rfl⟩ := List.mem_map.mp hc
      rw [← htid, ← hb]
      exact ⟨List.mem_range.mp ht, set, hset, b, BitSpace.mem_toList.mp hbm, rfl⟩

/-- **The links are the members** exactly when every member of every listed
user's sets is itself listed. -/
theorem updateGraph_exact_iff (h : db.SortedUsers list) (pathLimit : ℕ) :
    db.ExactGraph (db.updateGraph list pathLimit) ↔ db.MembersListed := by
  have huids : (db.updateGraph list pathLimit).userTab.map AdjUser.uid = list :=
    uids_updateGraph pathLimit h.nodup
  constructor
  · intro hexact uid hu t ht set hset b hb
    obtain ⟨i, hi⟩ := List.mem_iff_getElem?.mp (h.perm.mem_iff.mpr hu)
    -- the transport has a link for each member, so none is left out
    have hlen := (hexact.links i uid (by rwa [huids]) t ht set hset).length_eq
    rw [List.length_map, ← List.length_map (f := AdjLink.b),
      heads_filter pathLimit h.nodup hi ht hset, List.length_map] at hlen
    have hall := List.length_filter_eq_length_iff.mp hlen.symm b
      (BitSpace.mem_toList.mpr hb)
    simpa using hall
  · intro hlisted
    have hmem : ∀ i uid, list[i]? = some uid → uid ∈ db.addUsers :=
      fun i uid hi => h.perm.mem_iff.mp (List.mem_of_getElem? hi)
    refine ⟨by rw [huids]; exact h.perm, ?_, ?_⟩
    · intro i uid hi t ht set hset
      rw [huids] at hi
      have hin := hlisted uid (hmem i uid hi) t ht set hset
      have hall : (BitSpace.toList set.members).filter (fun b => b ∈ db.addUsers) =
          BitSpace.toList set.members := by
        refine List.filter_eq_self.mpr fun b hb => ?_
        simpa using hin b (BitSpace.mem_toList.mp hb)
      have hheads := congrArg (List.map (db.updateGraph list pathLimit).uidOf)
        (heads_filter pathLimit h.nodup hi ht hset)
      rw [List.map_map, List.map_map] at hheads
      rw [hall]
      refine List.Perm.of_eq (hheads.trans ?_)
      refine (List.map_congr_left fun b hb => ?_).trans (List.map_id _)
      exact uidOf_listIdx pathLimit h.nodup
        (h.perm.mem_iff.mpr (hin b (BitSpace.mem_toList.mp hb)))
    · intro i uid hi l hl
      rw [huids] at hi
      obtain ⟨ht, set, hset, b, hb, heq⟩ := member_of_mem_links pathLimit h.nodup hi hl
      refine ⟨ht, set, hset, ?_⟩
      have hlb := hlisted uid (hmem i uid hi) _ ht set hset b hb
      rw [heq, uidOf_listIdx pathLimit h.nodup (h.perm.mem_iff.mpr hlb)]
      exact hb

end LinkDB

/-! ## A peer that is gone -/

theorem lt_of_isSome_single {x : UserEntry} {uid : ℕ}
    (h : (if uid = 1 then some x else none).isSome) : uid < 3 := by
  by_cases h1 : uid = 1
  · omega
  · simp [h1] at h

/-- `A` with its peer `B`, whose only set still names `C`, which timed out. -/
def staleDB : LinkDB where
  me := ⟨"A", 1, AdjacencyTab.empty⟩
  peer uid := if uid = 1 then some ⟨"B", 2, AdjacencyTab.empty.put 0
    { AdjacencySpace.new with members := {2}, tport := text "bc", tportType := text "tcp" }⟩
    else none
  nextUid := 3
  peer_lt _ h := lt_of_isSome_single h

theorem sortedUsers_staleDB : staleDB.SortedUsers [0, 1] := ⟨by decide, by decide⟩

theorem updateGraph_exact_iff_staleDB :
    staleDB.SortedUsers [0, 1] ∧
      (staleDB.ExactGraph (staleDB.updateGraph [0, 1] 8) ↔ staleDB.MembersListed) :=
  ⟨sortedUsers_staleDB, LinkDB.updateGraph_exact_iff sortedUsers_staleDB 8⟩

/-- The set of `B` names only `C`, and `B` gets a link to `A`. -/
theorem updateGraph_stale_member :
    ¬ ∀ (db : LinkDB) (list : List ℕ) (pathLimit : ℕ), db.SortedUsers list →
      db.ExactGraph (db.updateGraph list pathLimit) := by
  intro h
  have hmember := (h staleDB [0, 1] 8 sortedUsers_staleDB).member 1 1 (by decide)
    ⟨1, 0, "bc", "tcp", AdjCost.const COST_DEFAULT, 0, 0, 0⟩ (by decide)
  obtain ⟨-, set, hset, hin⟩ := hmember
  obtain rfl := Option.some.inj hset
  exact absurd hin (by decide)

end Raims
