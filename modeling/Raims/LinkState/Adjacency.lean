import Raims.Graph.AdjCost
import Mathlib.Logic.Function.Basic

/-!
# Adjacency sets (`adjacency.h`)

For each transport of a user, the users it connects, by this node's local uids,
with the name, type and cost of the transport and its remote end.
-/

namespace Raims

/-- `AdjacencySpace`, less the fields nothing here reads (`next_link`,
`is_advertised`). -/
@[ext] structure AdjacencySpace where
  members : Finset ℕ
  tport : Text
  tportType : Text
  /-- uid owner of link -/
  uid : ℕ
  /-- tport owner of link -/
  tportId : ℕ
  /-- uid `rem_tport_id` belongs to -/
  remUid : ℕ
  remTportId : ℕ
  cost : AdjCost
deriving DecidableEq

/-- `AdjacencySpace()`. -/
def AdjacencySpace.new : AdjacencySpace :=
  ⟨∅, [], [], 0, 0, 0, 0, AdjCost.const COST_DEFAULT⟩

/-- `AdjacencyTab`: the sets by transport id, null where none was made. -/
@[ext] structure AdjacencyTab where
  count : ℕ
  ptr : ℕ → Option AdjacencySpace

namespace AdjacencyTab

def empty : AdjacencyTab := ⟨0, fun _ => none⟩

/-- `get( n, uid, cost )`: the set of transport `n`, made if it is missing, with
its owner and its cost set. -/
def get (tab : AdjacencyTab) (n uid : ℕ) (cost : AdjCost) : AdjacencySpace :=
  { (tab.ptr n).getD AdjacencySpace.new with uid := uid, tportId := n, cost := cost }

/-- The table with the set of transport `n` replaced. -/
def put (tab : AdjacencyTab) (n : ℕ) (set : AdjacencySpace) : AdjacencyTab :=
  ⟨max tab.count (n + 1), Function.update tab.ptr n (some set)⟩

theorem put_put (tab : AdjacencyTab) (n : ℕ) (s s' : AdjacencySpace) :
    (tab.put n s).put n s' = tab.put n s' := by
  ext1
  · simp [put]
  · simp [put]

theorem put_comm (tab : AdjacencyTab) {n n' : ℕ} (h : n ≠ n') (s s' : AdjacencySpace) :
    (tab.put n s).put n' s' = (tab.put n' s').put n s := by
  ext1
  · simp only [put]
    omega
  · exact Function.update_comm h _ _ _

@[simp] theorem ptr_put_self (tab : AdjacencyTab) (n : ℕ) (s : AdjacencySpace) :
    (tab.put n s).ptr n = some s := by
  simp [put]

theorem ptr_put_ne (tab : AdjacencyTab) {n m : ℕ} (h : m ≠ n) (s : AdjacencySpace) :
    (tab.put n s).ptr m = tab.ptr m := by
  simp [put, h]

end AdjacencyTab

end Raims
