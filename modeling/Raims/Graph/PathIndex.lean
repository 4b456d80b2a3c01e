import Raims.Graph.CostRoundTrip
import Raims.Graph.PathCount
import Raims.Msg.CabaFlags

/-!
# The paths that are asked for (`compute_path`)

A path is chosen below the path count of the graph: each of them in turn, or the one that
a hash or a caller names. The forwarding tables of a path are computed when it is asked
for, and what is computed is kept until the link state changes. The set of what is
computed has 256 bits and a message has a byte for its path, and the path count is
compared with neither.
-/

namespace Raims

/-- `AdjDistance`, as far as paths are concerned. `handed` is not in the source: it has the
paths that were handed to `compute_path`. -/
structure PathDistance where
  graph : Option AdjGraph
  pathComputed : Finset UInt16
  pathCount : ℕ
  cacheSeqno : ℕ
  graphSeqno : ℕ
  updateSeqno : ℕ
  handed : List UInt16

namespace PathDistance

def init : PathDistance := ⟨none, ∅, 1, 0, 0, 1, []⟩

def clearCache (s : PathDistance) : PathDistance :=
  { s with graph := none, pathComputed := ∅, pathCount := 1, cacheSeqno := s.updateSeqno }

def clearCacheIfDirty (s : PathDistance) : PathDistance :=
  if s.cacheSeqno ≠ s.updateSeqno then s.clearCache else s

def invalidate (s : PathDistance) : PathDistance := { s with updateSeqno := s.updateSeqno + 1 }

section Calls

variable (H : AdjHash) (g : AdjGraph)

/-- `update_graph( false )`; `g` is the graph of the users and their links. -/
def updateGraph (s : PathDistance) : PathDistance := { s.clearCacheIfDirty with graph := some g }

/-- The first half of `compute_path`. -/
def computeZero (s : PathDistance) : PathDistance :=
  if 0 ∈ s.pathComputed then s
  else
    let s := if s.graph.isNone then s.updateGraph g else s
    let graph := (s.graph.getD g).computeForwardSet H 0
    { s with
      graph := some graph
      pathCount := graph.pathCount
      pathComputed := insert 0 s.pathComputed
      graphSeqno := s.updateSeqno }

/-- `compute_path` -/
def computePath (p : UInt16) (s : PathDistance) : PathDistance :=
  let s := computeZero H g { s with handed := s.handed ++ [p] }
  if p ∈ s.pathComputed then s
  else
    { s with
      graph := s.graph.map fun graph => graph.computeForwardSet H p
      pathComputed := insert p s.pathComputed }

/-- `update_graph( true )`. The loop variable has 16 bits: with more paths than that the loop
goes on for ever, and this is its first pass. -/
def updateGraphAll (s : PathDistance) : PathDistance :=
  let s := (s.updateGraph g).computePath H g 0
  let count := (s.graph.map AdjGraph.pathCount).getD 0
  (List.range (min count (2 ^ 16))).tail.foldl (fun s p => s.computePath H g (UInt16.ofNat p)) s

/-- `get_path_count` -/
def getPathCount (s : PathDistance) : PathDistance :=
  if s.graphSeqno ≠ s.updateSeqno then s.clearCacheIfDirty.computePath H g 0 else s

/-- `hash_to_path`; none when it divides by zero. -/
def hashToPath (h : UInt32) (s : PathDistance) : Option (PathDistance × ℕ) :=
  let s := s.getPathCount H g
  if s.pathCount = 0 then none else some (s, (h &&& 0xff).toNat % s.pathCount)

/-- The path of `publish`, that the message may name. -/
def publishPath (path : UInt16) (h : UInt32) (s : PathDistance) : Option (PathDistance × ℕ) :=
  if path = 0xffff then s.hashToPath H g h
  else
    let s := s.getPathCount H g
    if s.pathCount = 0 then none else some (s, path.toNat % s.pathCount)

end Calls

/-- The calls. `update_graph` is called when there is no graph. The path that a hash or a
message gives goes to the forwarding table of that path (`update_path`). -/
inductive Call where
  | invalidate
  | updateGraph
  | getPathCount
  | hashToPath (h : UInt32)
  | publish (path : UInt16) (h : UInt32)

def step (H : AdjHash) (g : AdjGraph) (s : PathDistance) : Call → Option PathDistance
  | .invalidate => some s.invalidate
  | .updateGraph => some (if s.graph.isNone then s.updateGraphAll H g else s)
  | .getPathCount => some (s.getPathCount H g)
  | .hashToPath h => (s.hashToPath H g h).map fun r => r.1.computePath H g (UInt16.ofNat r.2)
  | .publish path h =>
    (s.publishPath H g path h).map fun r => r.1.computePath H g (UInt16.ofNat r.2)

def run (H : AdjHash) (g : AdjGraph) (calls : List Call) : Option PathDistance :=
  calls.foldlM (step H g) init

/-- The path fits in the set of what is computed and in the byte of a message, that gives it
back. -/
def Fits (p : UInt16) : Prop :=
  p.toNat < 256 ∧ ((CabaFlags.ofType .mcast).setPath p.toBitVec).getPath = p.toBitVec

theorem fits_of_lt {p : UInt16} (h : p.toNat < 256) : Fits p := by
  refine ⟨h, ?_⟩
  have hopt : ((CabaFlags.ofType .mcast).setPath p.toBitVec).getOpt =
      (CabaFlags.ofType .mcast).getOpt := CabaFlags.rsh_set_other _ _ (.inr (by decide))
  have hzpath : ¬ (((CabaFlags.ofType .mcast).setPath p.toBitVec).getOpt &&& cabaOptZpath ≠ 0) := by
    rw [hopt]
    decide
  rw [CabaFlags.getPath, if_neg hzpath]
  apply (CabaFlags.rsh_set_self _ _ (by decide)).trans
  apply BitVec.eq_of_toNat_eq
  rw [BitVec.toNat_and]
  exact Nat.and_two_pow_sub_one_of_lt_two_pow (n := 8) h

/-! ## What the calls keep -/

/-- The cache has its graph, with the count of path 0, from the time that path 0 is computed. -/
structure Inv (C : ℕ) (s : PathDistance) : Prop where
  graph_le : s.graphSeqno ≤ s.cacheSeqno
  cache_le : s.cacheSeqno ≤ s.updateSeqno
  computed : 0 ∈ s.pathComputed →
    s.graphSeqno = s.cacheSeqno ∧ s.pathCount = C ∧ ∃ graph, s.graph = some graph ∧ graph.pathCount = C
  fresh : 0 ∉ s.pathComputed → s.graph = none ∧ s.graphSeqno < s.updateSeqno

variable {H : AdjHash} {g : AdjGraph} {C : ℕ} {s : PathDistance}

theorem inv_init : Inv C init where
  graph_le := Nat.le_refl _
  cache_le := Nat.zero_le _
  computed h := absurd h (Finset.notMem_empty _)
  fresh _ := ⟨rfl, Nat.zero_lt_one⟩

theorem Inv.invalidate (h : Inv C s) : Inv C s.invalidate where
  graph_le := h.graph_le
  cache_le := Nat.le_succ_of_le h.cache_le
  computed := h.computed
  fresh h0 := ⟨(h.fresh h0).1, Nat.lt_succ_of_lt (h.fresh h0).2⟩

theorem Inv.clearCacheIfDirty (h : Inv C s) : Inv C s.clearCacheIfDirty := by
  unfold PathDistance.clearCacheIfDirty
  split
  · next hdirty =>
    have hlt := lt_of_le_of_ne h.cache_le hdirty
    exact ⟨h.graph_le.trans h.cache_le, Nat.le_refl _, fun h0 => absurd h0 (Finset.notMem_empty _),
      fun _ => ⟨rfl, lt_of_le_of_lt h.graph_le hlt⟩⟩
  · exact h

/-- `update_graph` leaves the cache clean, with no path computed that was not. -/
theorem updateGraph_spec (s : PathDistance) :
    (s.updateGraph g).graph = some g ∧ (s.updateGraph g).cacheSeqno = s.updateSeqno ∧
      (s.updateGraph g).updateSeqno = s.updateSeqno ∧ (s.updateGraph g).handed = s.handed ∧
      (0 ∉ s.pathComputed → 0 ∉ (s.updateGraph g).pathComputed) := by
  unfold updateGraph PathDistance.clearCacheIfDirty
  split
  · exact ⟨rfl, rfl, rfl, rfl, fun _ => Finset.notMem_empty _⟩
  · next hclean => exact ⟨rfl, not_not.mp hclean, rfl, rfl, fun h0 => h0⟩

/-- What a call that computes path 0 leaves, besides what it hands over. -/
structure Computed (C : ℕ) (s s' : PathDistance) : Prop where
  inv : Inv C s'
  zero : 0 ∈ s'.pathComputed
  updateSeqno : s'.updateSeqno = s.updateSeqno

theorem Computed.pathCount {s' : PathDistance} (h : Computed C s s') : s'.pathCount = C :=
  (h.inv.computed h.zero).2.1

theorem computeZero_spec (hC : (g.computeForwardSet H 0).pathCount = C) (h : Inv C s) :
    Computed C s (s.computeZero H g) ∧ (s.computeZero H g).handed = s.handed := by
  unfold computeZero
  split
  · next h0 => exact ⟨⟨h, h0, rfl⟩, rfl⟩
  · next h0 =>
    obtain ⟨hgraph, hcache, hupdate, hhanded, -⟩ := @updateGraph_spec g s
    have hnone : s.graph.isNone = true := by rw [(h.fresh h0).1]; rfl
    simp only [hnone, if_true, hgraph, Option.getD_some]
    refine ⟨⟨⟨?_, ?_, fun _ => ⟨?_, hC, _, rfl, hC⟩, fun hnot => ?_⟩, ?_, hupdate⟩, hhanded⟩
    · exact Nat.le_of_eq (hupdate.trans hcache.symm)
    · exact Nat.le_of_eq (hcache.trans hupdate.symm)
    · exact hupdate.trans hcache.symm
    · exact absurd (Finset.mem_insert_self _ _) hnot
    · exact Finset.mem_insert_self _ _

theorem computePath_spec (hC : (g.computeForwardSet H 0).pathCount = C) (h : Inv C s) (p : UInt16) :
    Computed C s (s.computePath H g p) ∧ (s.computePath H g p).handed = s.handed ++ [p] := by
  have hadd : Inv C { s with handed := s.handed ++ [p] } :=
    ⟨h.graph_le, h.cache_le, h.computed, h.fresh⟩
  obtain ⟨⟨hinv, hzero, hupdate⟩, hhanded⟩ := computeZero_spec hC hadd
  unfold computePath
  simp only
  split
  · exact ⟨⟨hinv, hzero, hupdate⟩, hhanded⟩
  · next hp =>
    have hne : p ≠ 0 := fun h0 => hp (h0 ▸ hzero)
    obtain ⟨hseqno, hcount, graph, hgraph, hgcount⟩ := hinv.computed hzero
    refine ⟨⟨⟨hinv.graph_le, hinv.cache_le, fun _ => ⟨hseqno, hcount, ?_⟩, fun hnot => ?_⟩, ?_,
      hupdate⟩, hhanded⟩
    · rw [hgraph]
      exact ⟨_, rfl, (AdjGraph.pathCount_compute_ne hne).trans hgcount⟩
    · exact absurd (Finset.mem_insert_of_mem hzero) hnot
    · exact Finset.mem_insert_of_mem hzero

/-- A path for each of the list. -/
theorem foldl_computePath_spec (hC : (g.computeForwardSet H 0).pathCount = C)
    (paths : List ℕ) (h : Inv C s) (hzero : 0 ∈ s.pathComputed) :
    Computed C s (paths.foldl (fun s p => s.computePath H g (UInt16.ofNat p)) s) ∧
      (paths.foldl (fun s p => s.computePath H g (UInt16.ofNat p)) s).handed =
        s.handed ++ paths.map UInt16.ofNat := by
  induction paths using List.reverseRecOn with
  | nil => exact ⟨⟨h, hzero, rfl⟩, (List.append_nil _).symm⟩
  | append_singleton paths p ih =>
    obtain ⟨hcomp, hhanded⟩ := ih
    obtain ⟨⟨hinv, hz, hupdate⟩, hone⟩ := computePath_spec hC hcomp.inv (UInt16.ofNat p)
    rw [List.foldl_concat]
    refine ⟨⟨hinv, hz, hupdate.trans hcomp.updateSeqno⟩, ?_⟩
    rw [hone, hhanded, List.map_append, List.append_assoc]
    rfl

/-- Building the graph first is what `compute_path` does without one. -/
theorem computePath_updateGraph (h0 : 0 ∉ s.pathComputed) (hnone : s.graph = none) :
    (s.updateGraph g).computePath H g 0 = s.computePath H g 0 := by
  have hnot := (@updateGraph_spec g s).2.2.2.2 h0
  have hswap : ({ s.updateGraph g with handed := (s.updateGraph g).handed ++ [0] } : PathDistance) =
      updateGraph g { s with handed := s.handed ++ [0] } := by
    unfold updateGraph PathDistance.clearCacheIfDirty
    by_cases hdirty : s.cacheSeqno = s.updateSeqno
    · rw [if_neg (not_not_intro hdirty), if_neg (not_not_intro hdirty)]
    · rw [if_pos hdirty, if_pos hdirty]
      rfl
  have hzero : computeZero H g (updateGraph g { s with handed := s.handed ++ [0] }) =
      computeZero H g { s with handed := s.handed ++ [0] } := by
    have hnot' : 0 ∉ (updateGraph g { s with handed := s.handed ++ [0] }).pathComputed :=
      (@updateGraph_spec g { s with handed := s.handed ++ [0] }).2.2.2.2 h0
    have hsome : (updateGraph g { s with handed := s.handed ++ [0] }).graph.isNone = false := rfl
    have hnone' : s.graph.isNone = true := by rw [hnone]; rfl
    rw [computeZero, if_neg hnot', computeZero, if_neg h0]
    simp only [hsome, hnone', if_true, Bool.false_eq_true, if_false]
  unfold computePath
  rw [hswap, hzero]

theorem updateGraphAll_spec (hC : (g.computeForwardSet H 0).pathCount = C) (h : Inv C s)
    (hnone : s.graph = none) :
    Computed C s (s.updateGraphAll H g) ∧
      (s.updateGraphAll H g).handed =
        s.handed ++ 0 :: (List.range (min C (2 ^ 16))).tail.map UInt16.ofNat := by
  have h0 : 0 ∉ s.pathComputed := by
    intro h0
    obtain ⟨graph, hgraph, -⟩ := (h.computed h0).2.2
    rw [hnone] at hgraph
    cases hgraph
  obtain ⟨⟨hinv, hzero, hupdate⟩, hhanded⟩ := computePath_spec hC h 0
  obtain ⟨graph, hgraph, hcount⟩ := (hinv.computed hzero).2.2
  have hloop := foldl_computePath_spec hC (List.range (min C (2 ^ 16))).tail hinv hzero
  unfold updateGraphAll
  rw [computePath_updateGraph h0 hnone]
  simp only [hgraph, Option.map_some, Option.getD_some, hcount]
  refine ⟨⟨hloop.1.inv, hloop.1.zero, hloop.1.updateSeqno.trans hupdate⟩, ?_⟩
  rw [hloop.2, hhanded, List.append_assoc]
  rfl

theorem getPathCount_spec (hC : (g.computeForwardSet H 0).pathCount = C) (h : Inv C s) :
    Computed C s (s.getPathCount H g) ∧
      ((s.getPathCount H g).handed = s.handed ∨ (s.getPathCount H g).handed = s.handed ++ [0]) := by
  unfold getPathCount
  split
  · obtain ⟨⟨hinv, hzero, hupdate⟩, hhanded⟩ := computePath_spec hC h.clearCacheIfDirty 0
    have hkept : s.clearCacheIfDirty.handed = s.handed ∧
        s.clearCacheIfDirty.updateSeqno = s.updateSeqno := by
      unfold PathDistance.clearCacheIfDirty
      split <;> exact ⟨rfl, rfl⟩
    exact ⟨⟨hinv, hzero, hupdate.trans hkept.2⟩, Or.inr (hkept.1 ▸ hhanded)⟩
  · next hvalid =>
    have hzero : 0 ∈ s.pathComputed := by
      by_contra h0
      exact Nat.ne_of_lt (h.fresh h0).2 (not_not.mp hvalid)
    exact ⟨⟨h, hzero, rfl⟩, Or.inl rfl⟩

/-- A path that is chosen: it is below the path count, and there is none when that is zero. -/
theorem publishPath_spec (hC : (g.computeForwardSet H 0).pathCount = C) (h : Inv C s) (path : UInt16)
    (hash : UInt32) :
    s.publishPath H g path hash =
      if C = 0 then none
      else some (s.getPathCount H g,
        (if path = 0xffff then (hash &&& 0xff).toNat else path.toNat) % C) := by
  have hcount := (getPathCount_spec hC h).1.pathCount
  unfold publishPath hashToPath
  simp only [hcount]
  split
  · rfl
  · rfl

theorem hashToPath_eq (hash : UInt32) : s.hashToPath H g hash = s.publishPath H g 0xffff hash :=
  (if_pos rfl).symm

/-! ## All runs -/

/-- The paths that `get_path_count` hands out are below the count. -/
theorem getPathCount_below (hC : (g.computeForwardSet H 0).pathCount = C) (hpos : C ≠ 0)
    (h : Inv C s) (hbelow : ∀ p ∈ s.handed, p.toNat < C) :
    ∀ p ∈ (s.getPathCount H g).handed, p.toNat < C := by
  intro p hp
  rcases (getPathCount_spec hC h).2 with heq | heq
  · exact hbelow p (heq ▸ hp)
  · rw [heq] at hp
    rcases List.mem_append.mp hp with hp | hp
    · exact hbelow p hp
    · rw [List.mem_singleton.mp hp]
      exact Nat.pos_of_ne_zero hpos

/-- A path that is cut to 16 bits stays below. -/
theorem toNat_ofNat_lt {n : ℕ} (h : n < C) : (UInt16.ofNat n).toNat < C := by
  rw [UInt16.toNat_ofNat']
  exact Nat.lt_of_le_of_lt (Nat.mod_le _ _) h

theorem choose_spec (hC : (g.computeForwardSet H 0).pathCount = C) (hpos : C ≠ 0) (h : Inv C s)
    (hbelow : ∀ p ∈ s.handed, p.toNat < C) (path : UInt16) (hash : UInt32) :
    ∃ s', (s.publishPath H g path hash).map
        (fun r => r.1.computePath H g (UInt16.ofNat r.2)) = some s' ∧
      Inv C s' ∧ ∀ p ∈ s'.handed, p.toNat < C := by
  rw [publishPath_spec hC h, if_neg hpos]
  obtain ⟨hcomp, -⟩ := getPathCount_spec hC h
  refine ⟨_, rfl, (computePath_spec hC hcomp.inv _).1.inv, ?_⟩
  simp only [(computePath_spec hC hcomp.inv _).2]
  intro p hp
  rcases List.mem_append.mp hp with hp | hp
  · exact getPathCount_below hC hpos h hbelow p hp
  · rw [List.mem_singleton.mp hp]
    exact toNat_ofNat_lt (Nat.mod_lt _ (Nat.pos_of_ne_zero hpos))

theorem mem_loop {n p : ℕ} : p ∈ (List.range n).tail ↔ 0 < p ∧ p < n := by
  cases n with
  | zero => simp
  | succ n =>
    rw [List.range_succ_eq_map, List.tail_cons, List.mem_map]
    constructor
    · rintro ⟨q, hq, rfl⟩
      exact ⟨Nat.succ_pos q, Nat.succ_lt_succ (List.mem_range.mp hq)⟩
    · rintro ⟨hpos, hlt⟩
      exact ⟨p - 1, List.mem_range.mpr (by omega), Nat.succ_pred_eq_of_pos hpos⟩

theorem step_spec (hC : (g.computeForwardSet H 0).pathCount = C) (hpos : C ≠ 0) (h : Inv C s)
    (hbelow : ∀ p ∈ s.handed, p.toNat < C) (call : Call) :
    ∃ s', step H g s call = some s' ∧ Inv C s' ∧ ∀ p ∈ s'.handed, p.toNat < C := by
  cases call with
  | invalidate => exact ⟨_, rfl, h.invalidate, hbelow⟩
  | updateGraph =>
    refine ⟨_, rfl, ?_⟩
    split
    · next hnone =>
      obtain ⟨hcomp, hhanded⟩ := updateGraphAll_spec hC h (Option.isNone_iff_eq_none.mp hnone)
      refine ⟨hcomp.inv, ?_⟩
      rw [hhanded]
      intro p hp
      rcases List.mem_append.mp hp with hp | hp
      · exact hbelow p hp
      · rcases List.mem_cons.mp hp with rfl | hp
        · exact Nat.pos_of_ne_zero hpos
        · obtain ⟨q, hq, rfl⟩ := List.mem_map.mp hp
          exact toNat_ofNat_lt (Nat.lt_of_lt_of_le (mem_loop.mp hq).2 (Nat.min_le_left _ _))
    · exact ⟨h, hbelow⟩
  | getPathCount =>
    obtain ⟨hcomp, -⟩ := getPathCount_spec hC h
    exact ⟨_, rfl, hcomp.inv, getPathCount_below hC hpos h hbelow⟩
  | hashToPath hash =>
    rw [step, hashToPath_eq]
    exact choose_spec hC hpos h hbelow _ hash
  | publish path hash => exact choose_spec hC hpos h hbelow path hash

theorem run_spec (hC : (g.computeForwardSet H 0).pathCount = C) (hpos : C ≠ 0) (h : Inv C s)
    (hbelow : ∀ p ∈ s.handed, p.toNat < C) (calls : List Call) :
    ∃ s', calls.foldlM (step H g) s = some s' ∧ ∀ p ∈ s'.handed, p.toNat < C := by
  induction calls generalizing s with
  | nil => exact ⟨s, rfl, hbelow⟩
  | cons call calls ih =>
    obtain ⟨s', hstep, hinv, hbelow'⟩ := step_spec hC hpos h hbelow call
    rw [List.foldlM_cons, hstep]
    exact ih hinv hbelow'

/-- The paths fit in every run exactly when the path count does. -/
theorem run_fits_iff (hC : (g.computeForwardSet H 0).pathCount = C) :
    (∀ calls : List Call, ∃ s, run H g calls = some s ∧ ∀ p ∈ s.handed, Fits p) ↔
      C ≠ 0 ∧ C ≤ 256 := by
  constructor
  · intro h
    constructor
    · rintro rfl
      obtain ⟨s, hrun, -⟩ := h [.hashToPath 0]
      have hnone : run H g [.hashToPath 0] = none := by
        show (step H g init (.hashToPath 0)).bind _ = none
        rw [step, hashToPath_eq, publishPath_spec hC inv_init, if_pos rfl]
        rfl
      rw [hnone] at hrun
      cases hrun
    · by_contra hbig
      rw [Nat.not_le] at hbig
      obtain ⟨s, hrun, hfits⟩ := h [.updateGraph]
      have hall : run H g [.updateGraph] = some (init.updateGraphAll H g) := rfl
      obtain rfl : init.updateGraphAll H g = s := by
        rw [hall] at hrun
        exact Option.some_inj.mp hrun
      have hmem : UInt16.ofNat 256 ∈ (init.updateGraphAll H g).handed := by
        rw [(updateGraphAll_spec hC inv_init rfl).2]
        refine List.mem_append_right _ (List.mem_cons_of_mem _ (List.mem_map_of_mem ?_))
        exact mem_loop.mpr ⟨by decide, lt_min hbig (by decide)⟩
      exact absurd (hfits _ hmem).1 (by decide)
  · rintro ⟨hpos, hle⟩ calls
    obtain ⟨s, hrun, hbelow⟩ := run_spec hC hpos inv_init (fun _ h => absurd h (by simp [init])) calls
    exact ⟨s, hrun, fun p hp => fits_of_lt (lt_of_lt_of_le (hbelow p hp) hle)⟩

/-- A node with one transport to the other, of this cost. -/
def tcpEntry (user : String) (start peer : ℕ) (cost : AdjCost) : UserEntry :=
  ⟨user, start, 1, fun t =>
    if t = 0 then some { AdjacencySpace.new with
      members := {peer}, tport := text "net", tportType := text "tcp", cost := cost }
    else none⟩

def tcpDB (cost : AdjCost) : LinkDB where
  me := tcpEntry "A" 1 1 cost
  peer uid := if uid = 1 then some (tcpEntry "B" 2 0 cost) else none
  nextUid := 2
  peer_lt := by
    intro uid h
    by_cases h1 : uid = 1
    · omega
    · simp [h1] at h

theorem sortedUsers_tcpDB (cost : AdjCost) : (tcpDB cost).SortedUsers [0, 1] := by
  refine ⟨?_, ?_⟩
  · show [0, 1].Perm (tcpDB cost).addUsers
    rfl
  · rw [List.pairwise_pair]
    show (1 : ℕ) ≤ 2
    decide

/-- A hash of zeros. -/
def zeroHash : AdjHash := ⟨fun _ => 0, fun _ => 0⟩

end PathDistance

end Raims
