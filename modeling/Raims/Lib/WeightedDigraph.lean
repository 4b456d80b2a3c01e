import Mathlib.Algebra.Ring.Nat
import Mathlib.Data.Nat.Find
import Mathlib.Data.Set.Basic
import Mathlib.Tactic.Push

/-!
# Weighted digraphs: walks, distances and the settled-set argument

A weighted digraph is its edge relation `E a b k` (an edge from `a` to `b` of
weight `k`), so parallel edges, asymmetric weights and infinite vertex types
are all allowed. The results are the ones a label-setting search needs: a walk
that ends outside a set leaves it through some edge (`Walk.exits`), hence the
cheapest edge out of a settled set settles its head (`Settled.isDist_of_min`)
and the settled set stays strictly nearer than the rest (`Settled.extend`).

Hop by hop routing towards a target is a partial function that gives each vertex
a link. When every link it gives is tight, the route from a vertex costs the
distance and meets nobody twice (`exists_route`), whichever tight link each
vertex picks.
-/

namespace WeightedDigraph

variable {α : Type*}

/-- A walk from `s`, with the sum of its weights. -/
inductive Walk (E : α → α → ℕ → Prop) (s : α) : α → ℕ → Prop
  | nil : Walk E s s 0
  | snoc {a b : α} {c k : ℕ} : Walk E s a c → E a b k → Walk E s b (c + k)

def Reaches (E : α → α → ℕ → Prop) (s v : α) : Prop := ∃ c, Walk E s v c

/-- `d` is the least weight of a walk from `s` to `v`. -/
def IsDist (E : α → α → ℕ → Prop) (s v : α) (d : ℕ) : Prop :=
  Walk E s v d ∧ ∀ c, Walk E s v c → d ≤ c

variable {E : α → α → ℕ → Prop} {s v : α}

theorem reaches_iff_exists_isDist : Reaches E s v ↔ ∃ d, IsDist E s v d := by
  classical
  constructor
  · intro h
    exact ⟨Nat.find h, Nat.find_spec h, fun c hc => Nat.find_min' h hc⟩
  · rintro ⟨d, hd, -⟩
    exact ⟨d, hd⟩

theorem IsDist.unique {d e : ℕ} (hd : IsDist E s v d) (he : IsDist E s v e) :
    d = e :=
  Nat.le_antisymm (hd.2 e he.1) (he.2 d hd.1)

theorem isDist_self : IsDist E s s 0 :=
  ⟨.nil, fun _ _ => Nat.zero_le _⟩

/-- A walk that starts in `S` and ends outside it crosses the border; with
positive weights it is strictly longer than its first crossing unless it ends
there. -/
theorem Walk.exits (hpos : ∀ a b k, E a b k → 1 ≤ k) {S : Set α} (hs : s ∈ S)
    {c : ℕ} (hw : Walk E s v c) (hv : v ∉ S) :
    ∃ a ∈ S, ∃ b ∉ S, ∃ k c', E a b k ∧ Walk E s a c' ∧
      (c' + k < c ∨ b = v ∧ c' + k = c) := by
  induction hw with
  | nil => exact absurd hs hv
  | @snoc a b c k hw he ih =>
    by_cases ha : a ∈ S
    · exact ⟨a, ha, b, hv, k, c, he, hw, Or.inr ⟨rfl, rfl⟩⟩
    · obtain ⟨a', ha', b', hb', k', c', he', hw', hc⟩ := ih ha
      have hk := hpos _ _ _ he
      refine ⟨a', ha', b', hb', k', c', he', hw', Or.inl ?_⟩
      rcases hc with hc | ⟨-, hc⟩ <;> omega

/-! ## Settled sets -/

/-- `S` is settled with labels `d`: the labels are distances, and every walk
to a vertex outside `S` is longer than every label. -/
structure Settled (E : α → α → ℕ → Prop) (s : α) (S : Set α) (d : α → ℕ) :
    Prop where
  source : s ∈ S
  exact : ∀ a ∈ S, IsDist E s a (d a)
  nearer : ∀ a ∈ S, ∀ v ∉ S, ∀ c, Walk E s v c → d a < c

theorem settled_singleton (hpos : ∀ a b k, E a b k → 1 ≤ k) {d : α → ℕ}
    (hd : d s = 0) : Settled E s {s} d where
  source := rfl
  exact := by
    rintro a rfl
    rw [hd]
    exact isDist_self
  nearer := by
    rintro a rfl v hv c hw
    rw [hd]
    obtain ⟨a', -, b', -, k, c', he, -, hc⟩ :=
      hw.exits hpos (S := {a}) rfl hv
    have hk := hpos _ _ _ he
    rcases hc with hc | ⟨-, hc⟩ <;> omega

namespace Settled

variable {S : Set α} {d : α → ℕ}

/-- The head of a cheapest border edge is at that edge's cost. -/
theorem isDist_of_min (h : Settled E s S d) (hpos : ∀ a b k, E a b k → 1 ≤ k)
    {m : ℕ} (hmin : ∀ a ∈ S, ∀ b ∉ S, ∀ k, E a b k → m ≤ d a + k)
    {a b : α} {k : ℕ} (ha : a ∈ S) (hb : b ∉ S) (he : E a b k)
    (hm : d a + k = m) : IsDist E s b m := by
  refine ⟨hm ▸ (h.exact a ha).1.snoc he, ?_⟩
  intro c hw
  obtain ⟨a', ha', b', hb', k', c', he', hw', hc⟩ := hw.exits hpos h.source hb
  have hle := hmin a' ha' b' hb' k' he'
  have hd := (h.exact a' ha').2 c' hw'
  rcases hc with hc | ⟨-, hc⟩ <;> omega

/-- Adding every head of a cheapest border edge keeps the set settled. -/
theorem extend (h : Settled E s S d) (hpos : ∀ a b k, E a b k → 1 ≤ k)
    {m : ℕ} (hmin : ∀ a ∈ S, ∀ b ∉ S, ∀ k, E a b k → m ≤ d a + k)
    {B : Set α} (hB : ∀ b, b ∈ B ↔ b ∉ S ∧ ∃ a ∈ S, ∃ k, E a b k ∧ d a + k = m)
    (hne : B.Nonempty) {f : α → ℕ} (hold : ∀ a ∈ S, f a = d a)
    (hnew : ∀ b ∈ B, f b = m) : Settled E s (S ∪ B) f where
  source := Or.inl h.source
  exact := by
    rintro a (ha | ha)
    · rw [hold a ha]
      exact h.exact a ha
    · rw [hnew a ha]
      obtain ⟨hb, a', ha', k, he, hm⟩ := (hB a).mp ha
      exact h.isDist_of_min hpos hmin ha' hb he hm
  nearer := by
    intro a ha v hv c hw
    have hle : f a ≤ m := by
      rcases ha with ha | ha
      · rw [hold a ha]
        obtain ⟨b, hb⟩ := hne
        obtain ⟨hb, a', ha', k, he, hm⟩ := (hB b).mp hb
        have hlt := h.nearer a ha b hb _ ((h.exact a' ha').1.snoc he)
        omega
      · exact (hnew a ha).le
    have hvS : v ∉ S := fun h' => hv (Or.inl h')
    obtain ⟨a', ha', b', hb', k', c', he', hw', hc⟩ :=
      hw.exits hpos h.source hvS
    have hge := hmin a' ha' b' hb' k' he'
    have hd := (h.exact a' ha').2 c' hw'
    rcases hc with hc | ⟨rfl, hc⟩
    · omega
    · by_contra hcon
      -- the walk ends at the crossing and costs `m`: its head was added
      exact hv (Or.inr ((hB _).mpr ⟨hb', a', ha', k', he', by omega⟩))

/-- With no border edge left, the settled vertices are the reachable ones. -/
theorem mem_iff_reaches (h : Settled E s S d) (hpos : ∀ a b k, E a b k → 1 ≤ k)
    (hfin : ∀ a ∈ S, ∀ b ∉ S, ∀ k, ¬ E a b k) (v : α) :
    v ∈ S ↔ Reaches E s v := by
  constructor
  · exact fun hv => ⟨d v, (h.exact v hv).1⟩
  · rintro ⟨c, hw⟩
    by_contra hv
    obtain ⟨a, ha, b, hb, k, c', he, -⟩ := hw.exits hpos h.source hv
    exact hfin a ha b hb k he

end Settled

/-! ## Hop by hop routes -/

theorem Walk.cons {a : α} {k c : ℕ} (he : E s a k) (hw : Walk E a v c) :
    Walk E s v (k + c) := by
  induction hw with
  | nil =>
    rw [Nat.add_comm]
    exact Walk.nil.snoc he
  | snoc _ he' ih =>
    rw [← Nat.add_assoc]
    exact ih.snoc he'

theorem Walk.trans {a : α} {c c' : ℕ} (h : Walk E s a c) (h' : Walk E a v c') :
    Walk E s v (c + c') := by
  induction h' with
  | nil => exact h
  | snoc _ he ih =>
    rw [← Nat.add_assoc]
    exact ih.snoc he

/-- What is left of a shortest walk after its first edge is shortest. -/
theorem IsDist.tail {a : α} {k c : ℕ} (h : IsDist E s v (k + c)) (he : E s a k)
    (hw : Walk E a v c) : IsDist E a v c :=
  ⟨hw, fun _ hw' => Nat.le_of_add_le_add_left (h.2 _ (hw'.cons he))⟩

/-- The links met from a vertex on to the target `t`, when each vertex passes on
the link `next` gives it. -/
inductive Route {β : Type*} (next : α → Option β) (head : β → α) (t : α) :
    α → List β → Prop
  | arrive : Route next head t t []
  | hop {x : α} {l : β} {ls : List β} : x ≠ t → next x = some l →
      Route next head t (head l) ls → Route next head t x (l :: ls)

/-- Every link of a route is the one its vertex was given. -/
theorem Route.next_of_mem {β : Type*} {next : α → Option β} {head : β → α} {t x : α}
    {ls : List β} (h : Route next head t x ls) : ∀ l ∈ ls, ∃ y, next y = some l := by
  induction h with
  | arrive => simp
  | @hop x l ls _ hnext _ ih =>
    intro l' hl'
    rcases List.mem_cons.mp hl' with rfl | hl'
    · exact ⟨x, hnext⟩
    · exact ih l' hl'

/-- The links `next` gives towards `t` are tight on the vertices of `P`, and stay
there. -/
def TightNext {β : Type*} (E : α → α → ℕ → Prop) (next : α → Option β)
    (head : β → α) (cost : β → ℕ) (t : α) (P : α → Prop) : Prop :=
  ∀ x d, P x → x ≠ t → IsDist E x t d → ∃ l c, next x = some l ∧ P (head l) ∧
    1 ≤ cost l ∧ IsDist E (head l) t c ∧ cost l + c = d

theorem exists_route {β : Type*} {next : α → Option β} {head : β → α}
    {cost : β → ℕ} {t : α} {P : α → Prop} (h : TightNext E next head cost t P)
    (d : ℕ) (x : α) (hx : P x) (hd : IsDist E x t d) :
    ∃ ls, Route next head t x ls ∧ (ls.map cost).sum = d ∧
      (x :: ls.map head).Nodup ∧ ∀ l ∈ ls, ∃ c < d, IsDist E (head l) t c := by
  -- on the distance, which each hop lowers by the cost of its link
  induction d using Nat.strongRecOn generalizing x with
  | ind d ih =>
    by_cases hxt : x = t
    · subst hxt
      obtain rfl := hd.unique isDist_self
      exact ⟨[], .arrive, rfl, by simp, by simp⟩
    · obtain ⟨l, c, hnext, hl, hpos, hc, hsum⟩ := h x d hx hxt hd
      have hlt : c < d := by omega
      obtain ⟨ls, hroute, hcost, hnd, hnear⟩ := ih c hlt (head l) hl hc
      have hnear' : ∀ l' ∈ l :: ls, ∃ c' < d, IsDist E (head l') t c' := by
        intro l' hl'
        rcases List.mem_cons.mp hl' with rfl | hl'
        · exact ⟨c, hlt, hc⟩
        · obtain ⟨c', hc', hd'⟩ := hnear l' hl'
          exact ⟨c', hc'.trans hlt, hd'⟩
      refine ⟨l :: ls, .hop hxt hnext hroute, ?_, ?_, hnear'⟩
      · rw [List.map_cons, List.sum_cons, hcost, hsum]
      · -- every vertex met later is strictly nearer to the target than `x`
        refine List.nodup_cons.mpr ⟨?_, hnd⟩
        intro hin
        obtain ⟨l', hl', rfl⟩ := List.mem_map.mp hin
        obtain ⟨c', hc', hd'⟩ := hnear' l' hl'
        exact absurd (hd.unique hd') (Nat.ne_of_gt hc')

end WeightedDigraph
