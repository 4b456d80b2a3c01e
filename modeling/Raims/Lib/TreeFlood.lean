import Mathlib.Data.Multiset.Filter
import Mathlib.Data.List.Nodup
import Mathlib.Data.List.Induction

/-!
# Flooding a tree

A message is flooded over links of type `ε` between nodes of type `ν`. A node
that gets a copy sends one on each link of its own list; copies in flight are
delivered in any order. When the lists are the projections of one tree, listed
from the root down, the flood ends, nobody gets two copies and the root gets
none, and at the end the receipts are exactly the heads of the tree's links.
-/

namespace TreeFlood

variable {ν ε : Type*}

/-- The links form a tree below `root`, each listed after its parent's link. -/
structure Tree (src dst : ε → ν) (root : ν) (tree : List ε) : Prop where
  nodup : (tree.map dst).Nodup
  ne_root : ∀ e ∈ tree, dst e ≠ root
  parent : ∀ pre e post, tree = pre ++ e :: post →
    src e = root ∨ ∃ e' ∈ pre, dst e' = src e

/-- The copies in flight, by the link each travels on, and the receipts. -/
structure Net (ν ε : Type*) where
  inflight : List ε
  recv : List ν

/-- Deliver any one copy; the receiver forwards on its links. -/
inductive Step (dst : ε → ν) (out : ν → List ε) : Net ν ε → Net ν ε → Prop
  | deliver (pre : List ε) (e : ε) (post : List ε) (recv : List ν) :
      Step dst out ⟨pre ++ e :: post, recv⟩
        ⟨pre ++ post ++ out (dst e), recv ++ [dst e]⟩

/-- The nets reached from the root's own sends, with the number of deliveries. -/
inductive Run (dst : ε → ν) (out : ν → List ε) (root : ν) : ℕ → Net ν ε → Prop
  | start : Run dst out root 0 ⟨out root, []⟩
  | step {n : ℕ} {net net' : Net ν ε} : Run dst out root n net →
      Step dst out net net' → Run dst out root (n + 1) net'

theorem length_recv_run {dst : ε → ν} {out : ν → List ε} {root : ν}
    {n : ℕ} {net : Net ν ε} (h : Run dst out root n net) :
    net.recv.length = n := by
  induction h with
  | start => rfl
  | step _ hs ih =>
    obtain ⟨pre, e, post, recv⟩ := hs
    simpa using ih

/-- Only what the nodes forward that the flood comes to matters. -/
theorem Run.congr {dst : ε → ν} {out out' : ν → List ε} {root : ν} {P : ν → Prop}
    (hroot : P root) (hsame : ∀ v, P v → out v = out' v)
    (hnext : ∀ v, P v → ∀ e ∈ out' v, P (dst e)) {n : ℕ} {net : Net ν ε}
    (h : Run dst out root n net) : Run dst out' root n net := by
  suffices hall : Run dst out' root n net ∧ ∀ e ∈ net.inflight, P (dst e) from hall.1
  induction h with
  | start =>
    rw [hsame root hroot]
    exact ⟨.start, hnext root hroot⟩
  | step _ hs ih =>
    obtain ⟨hrun, hflight⟩ := ih
    obtain ⟨pre, e, post, recv⟩ := hs
    have he := hflight e (List.mem_append_right _ (List.mem_cons_self ..))
    rw [hsame _ he]
    refine ⟨hrun.step (.deliver pre e post recv), fun e' he' => ?_⟩
    rcases List.mem_append.mp he' with hin | hin
    · refine hflight e' ?_
      rcases List.mem_append.mp hin with hin | hin
      · exact List.mem_append_left _ hin
      · exact List.mem_append_right _ (List.mem_cons_of_mem _ hin)
    · exact hnext _ he e' hin

variable [DecidableEq ν] {src dst : ε → ν} {root : ν} {tree : List ε}

/-- The links whose source has the message. -/
def active (src : ε → ν) (root : ν) (tree : List ε) (recv : List ν) : Multiset ε :=
  (tree : Multiset ε).filter fun e => src e = root ∨ src e ∈ recv

/-- Receipts and copies in flight together are the heads of the active links. -/
def Accounted (src dst : ε → ν) (root : ν) (tree : List ε) (net : Net ν ε) : Prop :=
  (net.recv : Multiset ν) + (net.inflight.map dst : List ν) =
    (active src root tree net.recv).map dst

theorem heads_nodup (ht : Tree src dst root tree) (recv : List ν) :
    ((active src root tree recv).map dst).Nodup :=
  Multiset.nodup_of_le (Multiset.map_le_map (Multiset.filter_le _ _))
    (by simpa using ht.nodup)

/-- A new receiver activates exactly its own links. -/
theorem active_snoc {b : ν} {recv : List ν} (hroot : b ≠ root) (hb : b ∉ recv) :
    active src root tree (recv ++ [b]) =
      active src root tree recv + (tree.filter fun e => src e = b : List ε) := by
  rw [← Multiset.filter_coe (p := fun e => src e = b) tree]
  unfold active
  rw [Multiset.filter_add_filter]
  have hnone : (tree : Multiset ε).filter
      (fun e => (src e = root ∨ src e ∈ recv) ∧ src e = b) = 0 := by
    rw [Multiset.filter_eq_nil]
    rintro e - ⟨hr | hr, rfl⟩
    · exact hroot hr
    · exact hb hr
  rw [hnone, Multiset.add_zero]
  refine Multiset.filter_congr fun e _ => ?_
  rw [List.mem_append, List.mem_singleton, or_assoc]

variable {out : ν → List ε}

theorem accounted_step (ht : Tree src dst root tree)
    (hout : ∀ v, out v = tree.filter fun e => src e = v) {net net' : Net ν ε}
    (h : Accounted src dst root tree net) (hs : Step dst out net net') :
    Accounted src dst root tree net' := by
  obtain ⟨pre, e, post, recv⟩ := hs
  unfold Accounted at h ⊢
  simp only at h ⊢
  have hnd := heads_nodup ht recv
  rw [← h] at hnd
  have hmem : dst e ∈ (active src root tree recv).map dst := by
    rw [← h]
    simp
  have hroot : dst e ≠ root := by
    obtain ⟨e', he', heq⟩ := Multiset.mem_map.mp hmem
    rw [← heq]
    exact ht.ne_root e' (by simpa using (Multiset.mem_filter.mp he').1)
  have hrecv : dst e ∉ recv := by
    intro hin
    rw [Multiset.coe_add, Multiset.coe_nodup, List.nodup_append] at hnd
    exact hnd.2.2 _ hin _ (by simp) rfl
  rw [active_snoc hroot hrecv, Multiset.map_add, ← h, hout, Multiset.map_coe,
    Multiset.coe_add, Multiset.coe_add, Multiset.coe_add, Multiset.coe_eq_coe]
  rw [List.perm_iff_count]
  intro v
  simp only [List.map_append, List.map_cons, List.count_append, List.count_cons,
    List.count_nil]
  omega

theorem accounted_run (ht : Tree src dst root tree)
    (hout : ∀ v, out v = tree.filter fun e => src e = v) {n : ℕ} {net : Net ν ε}
    (h : Run dst out root n net) : Accounted src dst root tree net := by
  induction h with
  | start =>
    unfold Accounted active
    simp [hout]
  | step _ hs ih => exact accounted_step ht hout ih hs

/-- The receipts of any run are a part of the heads of the tree's links. -/
theorem recv_le (ht : Tree src dst root tree)
    (hout : ∀ v, out v = tree.filter fun e => src e = v) {n : ℕ} {net : Net ν ε}
    (h : Run dst out root n net) :
    (net.recv : Multiset ν) ≤ (tree.map dst : List ν) := by
  have hacc := accounted_run ht hout h
  calc (net.recv : Multiset ν)
      ≤ (net.recv : Multiset ν) + (net.inflight.map dst : List ν) :=
        Multiset.le_add_right _ _
    _ = (active src root tree net.recv).map dst := hacc
    _ ≤ (tree.map dst : List ν) := by
        rw [← Multiset.map_coe]
        exact Multiset.map_le_map (Multiset.filter_le _ _)

/-- The flood ends: a run delivers at most one copy for each link. -/
theorem run_length_le (ht : Tree src dst root tree)
    (hout : ∀ v, out v = tree.filter fun e => src e = v) {n : ℕ} {net : Net ν ε}
    (h : Run dst out root n net) : n ≤ tree.length := by
  have hle := Multiset.card_le_card (recv_le ht hout h)
  rw [Multiset.coe_card, Multiset.coe_card, length_recv_run h, List.length_map] at hle
  exact hle

theorem recv_nodup (ht : Tree src dst root tree)
    (hout : ∀ v, out v = tree.filter fun e => src e = v) {n : ℕ} {net : Net ν ε}
    (h : Run dst out root n net) : net.recv.Nodup :=
  Multiset.coe_nodup.mp (Multiset.nodup_of_le (recv_le ht hout h)
    (Multiset.coe_nodup.mpr ht.nodup))

theorem root_not_mem_recv (ht : Tree src dst root tree)
    (hout : ∀ v, out v = tree.filter fun e => src e = v) {n : ℕ} {net : Net ν ε}
    (h : Run dst out root n net) : root ∉ net.recv := by
  intro hin
  have hmem : root ∈ tree.map dst :=
    Multiset.mem_coe.mp (Multiset.mem_of_le (recv_le ht hout h) hin)
  obtain ⟨e, he, heq⟩ := List.mem_map.mp hmem
  exact ht.ne_root e he heq

/-- With nothing left in flight every head of a tree link has its copy. -/
theorem mem_recv_of_done (ht : Tree src dst root tree)
    (hout : ∀ v, out v = tree.filter fun e => src e = v) {n : ℕ} {net : Net ν ε}
    (h : Run dst out root n net) (hdone : net.inflight = []) {v : ν} :
    v ∈ net.recv ↔ ∃ e ∈ tree, dst e = v := by
  have hacc := accounted_run ht hout h
  unfold Accounted at hacc
  rw [hdone, List.map_nil, Multiset.coe_nil, Multiset.add_zero] at hacc
  have hmem : ∀ w, w ∈ net.recv ↔ w ∈ (active src root tree net.recv).map dst := by
    intro w
    rw [← hacc, Multiset.mem_coe]
  -- from the root down: each parent has received before its child is looked at
  have hall : ∀ pre post, tree = pre ++ post → ∀ e ∈ pre, dst e ∈ net.recv := by
    intro pre
    induction pre using List.reverseRecOn with
    | nil => simp
    | append_singleton pre e ih =>
      intro post heq e' he'
      have heq' : tree = pre ++ e :: post := by simpa using heq
      rcases List.mem_append.mp he' with he' | he'
      · exact ih (e :: post) heq' e' he'
      · rw [List.mem_singleton.mp he']
        refine (hmem _).mpr (Multiset.mem_map_of_mem dst ?_)
        refine Multiset.mem_filter.mpr ⟨by simp [heq'], ?_⟩
        rcases ht.parent pre e post heq' with hr | ⟨e'', he'', hp⟩
        · exact Or.inl hr
        · exact Or.inr (hp ▸ ih (e :: post) heq' e'' he'')
  constructor
  · intro hv
    have hle := Multiset.mem_of_le (recv_le ht hout h) (Multiset.mem_coe.mpr hv)
    simpa using hle
  · rintro ⟨e, he, rfl⟩
    exact hall tree [] (by simp) e he

/-! ## Floods that leave out links

A node forwards on those of its links that it wants to. What the flood comes to is again a
tree, that of the links whose whole way from the root is forwarded on.
-/

/-- The links that the flood comes to, when it only goes over the links in `keep`. -/
inductive Kept (src dst : ε → ν) (root : ν) (tree : List ε) (keep : ε → Prop) : ε → Prop
  | root {e : ε} : e ∈ tree → keep e → src e = root → Kept src dst root tree keep e
  | next {e e' : ε} : Kept src dst root tree keep e → e' ∈ tree → keep e' → src e' = dst e →
      Kept src dst root tree keep e'

section Pruned

variable {keep : ε → Prop}

open Classical in
noncomputable def pruned (src dst : ε → ν) (root : ν) (tree : List ε) (keep : ε → Prop) : List ε :=
  tree.filter fun e => Kept src dst root tree keep e

omit [DecidableEq ν] in
theorem Kept.mem {e : ε} (h : Kept src dst root tree keep e) : e ∈ tree ∧ keep e := by
  cases h with
  | root he hk _ => exact ⟨he, hk⟩
  | next _ he hk _ => exact ⟨he, hk⟩

omit [DecidableEq ν] in
theorem mem_pruned {e : ε} :
    e ∈ pruned src dst root tree keep ↔ Kept src dst root tree keep e := by
  simp only [pruned, List.mem_filter, decide_eq_true_eq]
  exact and_iff_right_of_imp fun h => h.mem.1

omit [DecidableEq ν] in
theorem Tree.pruned (ht : Tree src dst root tree) :
    Tree src dst root (pruned src dst root tree keep) where
  nodup := ht.nodup.sublist (List.filter_sublist.map dst)
  ne_root := fun e he => ht.ne_root e (mem_pruned.mp he).mem.1
  parent := by
    intro pre e post heq
    have he : Kept src dst root tree keep e :=
      mem_pruned.mp (by rw [heq]; exact List.mem_append_right _ (List.mem_cons_self ..))
    obtain ⟨l₁, l₂, hl, hpre, hpost⟩ := List.filter_eq_append_iff.mp heq
    obtain ⟨m₁, m₂, hl₂, hm₁, -, -⟩ := List.filter_eq_cons_iff.mp hpost
    have htree : tree = (l₁ ++ m₁) ++ e :: m₂ := by rw [hl, hl₂, List.append_assoc]
    cases he with
    | root _ _ hroot => exact Or.inl hroot
    | @next e' _ hkept _ _ hsrc =>
      rcases ht.parent _ e m₂ htree with hr | ⟨e'', he'', hdst⟩
      · exact Or.inl hr
      · -- the parent in the tree is the kept link above `e`
        have hin : e'' ∈ tree := by
          rw [htree]
          exact List.mem_append_left _ he''
        obtain rfl : e'' = e' :=
          List.inj_on_of_nodup_map ht.nodup hin hkept.mem.1 (hdst.trans hsrc)
        refine Or.inr ⟨e'', ?_, hdst⟩
        rcases List.mem_append.mp he'' with hin | hin
        · rw [← hpre]
          exact List.mem_filter.mpr ⟨hin, by simpa using hkept⟩
        · exact absurd hkept (by simpa using hm₁ e'' hin)

variable [DecidablePred keep]

/-- Where the flood comes to, a node forwards on its links of the pruned tree. -/
theorem out_eq_pruned (hout : ∀ v, out v = (tree.filter fun e => src e = v).filter keep) {v : ν}
    (hv : v = root ∨ ∃ e, Kept src dst root tree keep e ∧ dst e = v) :
    out v = (pruned src dst root tree keep).filter fun e => src e = v := by
  rw [hout, pruned, List.filter_filter, List.filter_filter]
  refine List.filter_congr fun e he => ?_
  rw [Bool.eq_iff_iff]
  simp only [Bool.and_eq_true, decide_eq_true_eq]
  constructor
  · rintro ⟨hk, hsrc⟩
    refine ⟨hsrc, ?_⟩
    rcases hv with hv | ⟨e', hkept, hv⟩
    · exact .root he hk (hsrc.trans hv)
    · exact .next hkept he hk (hsrc.trans hv.symm)
  · rintro ⟨hsrc, hkept⟩
    exact ⟨hkept.mem.2, hsrc⟩

/-- A flood that leaves out links is one over the pruned tree. -/
theorem run_pruned (hout : ∀ v, out v = (tree.filter fun e => src e = v).filter keep) {n : ℕ}
    {net : Net ν ε} (h : Run dst out root n net) :
    Run dst (fun v => (pruned src dst root tree keep).filter fun e => src e = v) root n net := by
  refine h.congr (P := fun v => v = root ∨ ∃ e, Kept src dst root tree keep e ∧ dst e = v)
    (Or.inl rfl) (fun v hv => out_eq_pruned hout hv) fun v hv e he => ?_
  exact Or.inr ⟨e, mem_pruned.mp (List.mem_of_mem_filter he), rfl⟩

/-- With nothing left in flight, those have their copy that a kept link leads to. -/
theorem mem_recv_of_pruned_done (ht : Tree src dst root tree)
    (hout : ∀ v, out v = (tree.filter fun e => src e = v).filter keep) {n : ℕ} {net : Net ν ε}
    (h : Run dst out root n net) (hdone : net.inflight = []) {v : ν} :
    v ∈ net.recv ↔ ∃ e, Kept src dst root tree keep e ∧ dst e = v := by
  rw [mem_recv_of_done ht.pruned (fun _ => rfl) (run_pruned hout h) hdone]
  exact exists_congr fun e => and_congr_left fun _ => mem_pruned

end Pruned

end TreeFlood
