import Raims.Graph.AdjGraph
import Mathlib.Data.List.Sort
import Mathlib.Data.Finset.Card

/-!
# The forwarding sets (`AdjGraph::compute_forward_set`)

For every root user and a path `p` the source grows a set of visited users: each
round collects the links that leave the visited set at the least cost
(`get_min_cost`) and adds their heads (`add_fwd_set`). When two collected links
have the same head, the links are first put in the order of a hash of the path
and of the link number.
-/

namespace Raims

/-! ## The order of equal cost links -/

/-- `path_h[ 256 ]` and `link_h[ 1024 ]`, which `adj_hash_init` fills once from
raikv's random generator with a fixed seed. -/
structure AdjHash where
  path : ℕ → UInt32
  link : ℕ → UInt32

def rol32 (x r : UInt32) : UInt32 := (x <<< r) ||| (x >>> (32 - r))

namespace AdjHash

/-- The `while ( n > 1023 )` loop: fold the higher digits of the link number in,
ten bits a round. -/
def foldDigits (H : AdjHash) (r : UInt32) : ℕ → ℕ → UInt32 → UInt32
  | 0, _, lh => lh
  | fuel + 1, n, lh =>
    if 1023 < n then
      foldDigits H r fuel (n / 1024) (lh ^^^ rol32 (H.link (n / 1024 % 1024)) r)
    else lh

/-- The key of link number `n` on path `p`; each round of the loop shortens `n`,
so `n` rounds are enough. -/
def key (H : AdjHash) (p : UInt16) (n : ℕ) : UInt32 :=
  let r := (p &&& 31).toUInt32
  let lh := rol32 (H.link (n % 1024)) r
  rol32 (H.foldDigits r n n lh ^^^ H.path (p.toNat % 256)) r

end AdjHash

structure HashOrder where
  h : UInt32
  val : ℕ
deriving DecidableEq, Repr

/-- `HashOrderCmp`: by hash, then by position. -/
def HashOrder.le (v1 v2 : HashOrder) : Prop :=
  v1.h < v2.h ∨ v1.h = v2.h ∧ v1.val ≤ v2.val

instance : DecidableRel HashOrder.le := fun v1 v2 =>
  inferInstanceAs (Decidable (v1.h < v2.h ∨ v1.h = v2.h ∧ v1.val ≤ v2.val))

/-- `links` in the order of the sorted `elem[]`. The positions are distinct, so
the order has one sorted arrangement, whichever algorithm sorts. -/
def sortLinks (H : AdjHash) (p : UInt16) (links : List AdjLink) : List AdjLink :=
  ((links.zipIdx.map fun lx =>
      ((⟨H.key p lx.1.linkNum, lx.2⟩ : HashOrder), lx.1)).insertionSort
    fun e f => e.1.le f.1).map Prod.snd

/-! ## One round -/

/-- An entry of `AdjFwdTab`: a tree link, the cost of its head and the index of
the root's link that leads there. -/
structure AdjFwd where
  link : AdjLink
  cost : UInt32
  src : ℕ
deriving DecidableEq, Repr

/-- `AdjVisit`: the visited users, with the cost and the root link of each. -/
structure AdjVisit where
  user : Finset ℕ
  cost : ℕ → UInt32
  src : ℕ → ℕ

/-- What `get_min_cost` accumulates. -/
structure MinCost where
  minCost : UInt32
  links : List AdjLink
  dup : Finset ℕ
  dupCount : ℕ

namespace MinCost

def init : MinCost := ⟨0, [], ∅, 0⟩

/-- The loop body of `get_min_cost` for a link that leaves the visited set, at
the given path cost. A zero `min_cost` stands for none yet. -/
def offer (m : MinCost) (cost : UInt32) (link : AdjLink) : MinCost :=
  if cost < m.minCost ∨ m.minCost = 0 then ⟨cost, [link], {link.b}, 0⟩
  else if cost = m.minCost then
    { m with
      links := m.links ++ [link]
      dup := insert link.b m.dup
      dupCount := if link.b ∈ m.dup then m.dupCount + 1 else m.dupCount }
  else m

end MinCost

namespace AdjGraph

/-- The links that leave the visited set, in the order of the two loops of
`get_min_cost`, with their path costs. -/
def frontier (g : AdjGraph) (p : UInt16) (visit : AdjVisit) :
    List (UInt32 × AdjLink) :=
  (BitSpace.toList visit.user).flatMap fun idx =>
    ((g.links idx).filter fun l => l.b ∉ visit.user).map fun l =>
      (l.cost.get p + visit.cost idx, l)

/-- `get_min_cost`. -/
def getMinCost (g : AdjGraph) (p : UInt16) (visit : AdjVisit) : MinCost :=
  (g.frontier p visit).foldl (fun m cl => m.offer cl.1 cl.2) MinCost.init

end AdjGraph

/-- The state of the search from one root; `maxAlt` is the largest `dup_count`
it met. -/
structure FwdState where
  visit : AdjVisit
  fwd : List AdjFwd
  maxAlt : ℕ

namespace FwdState

def start (idx : ℕ) : FwdState := ⟨⟨{idx}, fun _ => 0, fun _ => 0⟩, [], 0⟩

/-- `add_fwd_set`. Only the root has cost zero, so the test for it finds the
links of the root itself. -/
def addFwdSet (s : FwdState) (cost : UInt32) (link : AdjLink) : FwdState :=
  let srcLink :=
    if s.visit.cost link.a = 0 then link.idx else s.visit.src link.a
  { s with
    visit :=
      { user := insert link.b s.visit.user
        cost := Function.update s.visit.cost link.b cost
        src := Function.update s.visit.src link.b srcLink }
    fwd := s.fwd ++ [⟨link, cost, srcLink⟩] }

/-- The second form of the round: a link whose head is visited is passed over. -/
def addFwdNew (s : FwdState) (cost : UInt32) (link : AdjLink) : FwdState :=
  if link.b ∈ s.visit.user then s else s.addFwdSet cost link

/-- The body of the `while` loop after `get_min_cost`. -/
def round (H : AdjHash) (p : UInt16) (s : FwdState) (m : MinCost) : FwdState :=
  if m.dupCount = 0 then m.links.foldl (fun s l => s.addFwdSet m.minCost l) s
  else
    (sortLinks H p m.links).foldl (fun s l => s.addFwdNew m.minCost l)
      { s with maxAlt := max s.maxAlt m.dupCount }

end FwdState

namespace AdjGraph

/-- The `while` loop for one root. Every round visits a new user, so as many
rounds as there are users are enough (`forwardLoop_done`). -/
def forwardLoop (H : AdjHash) (g : AdjGraph) (p : UInt16) : ℕ → FwdState → FwdState
  | 0, s => s
  | fuel + 1, s =>
    if s.visit.user.card = g.userTab.length then s
    else
      let m := g.getMinCost p s.visit
      if m.minCost = 0 then s else forwardLoop H g p fuel (s.round H p m)

def forwardFrom (H : AdjHash) (g : AdjGraph) (p : UInt16) (idx : ℕ) : FwdState :=
  forwardLoop H g p g.userTab.length (FwdState.start idx)

/-- `u->fwd[ p ]` for the root `u` at index `idx`. -/
def forwardSet (H : AdjHash) (g : AdjGraph) (p : UInt16) (idx : ℕ) : List AdjFwd :=
  (g.forwardFrom H p idx).fwd

/-- `u->links[ j ]->dest[ p ]`: the users reached through the `j`th link. -/
def linkDest (H : AdjHash) (g : AdjGraph) (p : UInt16) (idx j : ℕ) : Finset ℕ :=
  (((g.forwardSet H p idx).filter fun e => e.src = j).map fun e =>
    e.link.b).toFinset

/-- `for ( i = 1; i <= max_alt / 2; i *= 2 )`. -/
def doubleAbove (bound : ℕ) : ℕ → ℕ → ℕ
  | 0, i => i
  | fuel + 1, i => if i ≤ bound then doubleAbove bound fuel (i * 2) else i

/-- What `compute_forward_set` leaves in the graph besides the forwarding sets
and the `dest` maps. -/
def computeForwardSet (H : AdjHash) (g : AdjGraph) (p : UInt16) : AdjGraph :=
  let maxAlt := (List.range g.userTab.length).foldl
    (fun m idx => max m (g.forwardFrom H p idx).maxAlt) g.maxAlt
  { g with
    maxAlt := maxAlt
    pathCount :=
      if p = 0 ∧ g.pathCount < maxAlt then
        min (doubleAbove (maxAlt / 2) 32 1) g.pathLimit
      else g.pathCount }

end AdjGraph

end Raims
