import Raims.Graph.UpdateGraph
import Mathlib.Logic.Relation

/-!
# The link state database by uid (`AdjDistance`)

The searches of `AdjDistance` go from user to user over the adjacency sets, by local uid: this
node's own transports for uid 0, the sets that a peer reported for an authenticated one, and
nothing for any other. All the uids that they meet are below `max_uid`.
-/

namespace Raims

/-- A database whose sets have only uids that were given out. -/
structure UidDB extends LinkDB where
  nextUid_pos : 0 < nextUid
  members_lt : ∀ uid t set, (toLinkDB.adjacencyOf uid).ptr t = some set →
    ∀ b ∈ set.members, b < nextUid

namespace UidDB

variable (db : UidDB)

/-- `adjacency_count` -/
def adjacencyCount (uid : ℕ) : ℕ := (db.adjacencyOf uid).count

/-- `adjacency_set` -/
def adjacencySet (uid i : ℕ) : Option AdjacencySpace := (db.adjacencyOf uid).ptr i

/-- `AUTHENTICATED_STATE` of the bridge of a uid, if there is one. -/
def authenticated (uid : ℕ) : Bool := (db.peer uid).isSome

/-- What the loops over the transports of a user and over the members of each set go through. -/
def entries (uid : ℕ) : List (AdjacencySpace × ℕ) :=
  (List.range (db.adjacencyCount uid)).flatMap fun t =>
    match db.adjacencySet uid t with
    | none => []
    | some set => (BitSpace.toList set.members).map fun b => (set, b)

/-- `a` says that it is connected to `b`. -/
def Linked (a b : ℕ) : Prop := ∃ set, (set, b) ∈ db.entries a

/-- The users that this node reaches from one to the next. -/
def Reachable (uid : ℕ) : Prop := Relation.ReflTransGen db.Linked 0 uid

theorem mem_entries {uid : ℕ} {set : AdjacencySpace} {b : ℕ} :
    (set, b) ∈ db.entries uid ↔
      ∃ t < db.adjacencyCount uid, db.adjacencySet uid t = some set ∧ b ∈ set.members := by
  unfold entries
  rw [List.mem_flatMap]
  constructor
  · rintro ⟨t, ht, hmem⟩
    cases hset : db.adjacencySet uid t with
    | none => simp [hset] at hmem
    | some set' =>
      rw [hset] at hmem
      obtain ⟨b', hb', heq⟩ := List.mem_map.mp hmem
      obtain ⟨rfl, rfl⟩ := Prod.mk.inj heq
      exact ⟨t, List.mem_range.mp ht, hset, BitSpace.mem_toList.mp hb'⟩
  · rintro ⟨t, ht, hset, hb⟩
    refine ⟨t, List.mem_range.mpr ht, ?_⟩
    rw [hset]
    exact List.mem_map.mpr ⟨b, BitSpace.mem_toList.mpr hb, rfl⟩

theorem lt_of_mem_entries {uid : ℕ} {e : AdjacencySpace × ℕ} (h : e ∈ db.entries uid) :
    e.2 < db.nextUid := by
  obtain ⟨t, -, hset, hb⟩ := db.mem_entries.mp h
  exact db.members_lt uid t e.1 hset e.2 hb

theorem Linked.lt {db : UidDB} {a b : ℕ} (h : db.Linked a b) : b < db.nextUid := by
  obtain ⟨set, hmem⟩ := h
  exact db.lt_of_mem_entries hmem

theorem Reachable.lt {db : UidDB} {uid : ℕ} (h : db.Reachable uid) : uid < db.nextUid := by
  cases h with
  | refl => exact db.nextUid_pos
  | tail _ hlast => exact hlast.lt

end UidDB

end Raims
