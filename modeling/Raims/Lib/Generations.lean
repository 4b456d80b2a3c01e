import Mathlib.Data.Finset.Basic
import Mathlib.Data.List.AList

/-!
# Generations of a table

A table in generations, the newest first. What is used moves to the newest generation
and leaves a copy behind, which is marked. Which copies moved is kept beside the tables:
an entry is live if no newer generation has its key and it did not move.
-/

/-- A table, and the keys of which the entry moved to a newer one. -/
structure Generation (κ ν : Type) where
  tab : AList fun _ : κ => ν
  moved : Finset κ

namespace Generations

variable {κ ν : Type} [DecidableEq κ] {stale : ν → Bool} {mark : ν → ν}
  {g g' : Generation κ ν} {gs pre post : List (Generation κ ν)} {k : κ} {v : ν}

/-- An entry that moved is marked. -/
def Marked (stale : ν → Bool) (g : Generation κ ν) : Prop :=
  ∀ k v, k ∈ g.moved → g.tab.lookup k = some v → stale v = true

/-- What an older generation has of the keys of a newer one moved. -/
def Over (g g' : Generation κ ν) : Prop :=
  ∀ k, g.tab.lookup k ≠ none → g'.tab.lookup k ≠ none → k ∈ g'.moved

/-- Copies are marked, and nothing of the newest generation moved. -/
structure Sound (stale : ν → Bool) (gs : List (Generation κ ν)) : Prop where
  moves : gs.Pairwise Over
  marked : ∀ g ∈ gs, Marked stale g
  newest : ∀ g ∈ gs.head?, g.moved = ∅

/-- The entry of a key in the newest generation that has it, if it did not move. -/
def Live (gs : List (Generation κ ν)) (k : κ) (v : ν) : Prop :=
  ∃ pre g post, gs = pre ++ g :: post ∧ (∀ g' ∈ pre, g'.tab.lookup k = none) ∧
    g.tab.lookup k = some v ∧ k ∉ g.moved

/-- What is not marked of the older generations. -/
def unmarked (stale : ν → Bool) (gs : List (Generation κ ν)) : List (Sigma fun _ : κ => ν) :=
  gs.flatMap fun g => g.tab.entries.filter fun e => !stale e.2

/-- What a walk goes through: the newest generation, and what is not marked of the older
ones. -/
def walked (stale : ν → Bool) : List (Generation κ ν) → List (Sigma fun _ : κ => ν)
  | [] => []
  | g :: gs => g.tab.entries ++ unmarked stale gs

/-! ## What a walk goes through -/

theorem mem_unmarked :
    (⟨k, v⟩ : Sigma fun _ : κ => ν) ∈ unmarked stale gs ↔
      ∃ g ∈ gs, g.tab.lookup k = some v ∧ stale v = false := by
  rw [unmarked, List.mem_flatMap]
  constructor
  · rintro ⟨g, hg, hmem⟩
    obtain ⟨hmem, hstale⟩ := List.mem_filter.1 hmem
    exact ⟨g, hg, AList.mem_lookup_iff.2 hmem, by simpa using hstale⟩
  · rintro ⟨g, hg, hlookup, hstale⟩
    exact ⟨g, hg, List.mem_filter.2 ⟨AList.mem_lookup_iff.1 hlookup, by rw [hstale]; rfl⟩⟩

/-- An entry that is not marked has its key in no newer generation. -/
theorem Over.lookup_eq_none (hover : Over g g') (hmarked : Marked stale g')
    (hv : g'.tab.lookup k = some v) (hstale : stale v = false) : g.tab.lookup k = none := by
  by_contra hne
  have hmoved := hover k hne (by rw [hv]; exact Option.some_ne_none v)
  have htrue := hmarked k v hmoved hv
  rw [hstale] at htrue
  cases htrue

theorem Marked.notMem_moved (hmarked : Marked stale g) (hv : g.tab.lookup k = some v)
    (hstale : stale v = false) : k ∉ g.moved := by
  intro hmoved
  have htrue := hmarked k v hmoved hv
  rw [hstale] at htrue
  cases htrue

theorem nodup_unmarked (hover : gs.Pairwise Over) (hmarked : ∀ g ∈ gs, Marked stale g) :
    ((unmarked stale gs).map Sigma.fst).Nodup := by
  induction gs with
  | nil => exact List.nodup_nil
  | cons g gs ih =>
    obtain ⟨hg, hgs⟩ := List.pairwise_cons.1 hover
    have hrest := ih hgs fun g' hg' => hmarked g' (List.mem_cons_of_mem g hg')
    have hcons : unmarked stale (g :: gs) =
        (g.tab.entries.filter fun e => !stale e.2) ++ unmarked stale gs := List.flatMap_cons
    rw [hcons, List.map_append, List.nodup_append]
    refine ⟨List.Nodup.sublist (List.filter_sublist.map Sigma.fst) g.tab.nodupKeys, hrest, ?_⟩
    rintro k hk _ hk' rfl
    obtain ⟨⟨k, v⟩, hmem, rfl⟩ := List.mem_map.1 hk
    obtain ⟨⟨k', v'⟩, hmem', rfl⟩ := List.mem_map.1 hk'
    obtain ⟨g', hg', hv', hstale'⟩ := mem_unmarked.1 hmem'
    have hnone := (hg g' hg').lookup_eq_none (hmarked g' (List.mem_cons_of_mem g hg')) hv' hstale'
    have hv := AList.mem_lookup_iff.2 (List.mem_filter.1 hmem).1
    rw [Option.mem_def, hnone] at hv
    cases hv

/-- A walk goes through no key twice. -/
theorem Sound.nodup_walked (h : Sound stale gs) : ((walked stale gs).map Sigma.fst).Nodup := by
  cases gs with
  | nil => exact List.nodup_nil
  | cons g gs =>
    obtain ⟨hg, hgs⟩ := List.pairwise_cons.1 h.moves
    have hmarked : ∀ g' ∈ gs, Marked stale g' :=
      fun g' hg' => h.marked g' (List.mem_cons_of_mem g hg')
    rw [walked, List.map_append, List.nodup_append]
    refine ⟨g.tab.nodupKeys, nodup_unmarked hgs hmarked, ?_⟩
    rintro k hk _ hk' rfl
    obtain ⟨⟨k, v⟩, hmem, rfl⟩ := List.mem_map.1 hk
    obtain ⟨⟨k', v'⟩, hmem', rfl⟩ := List.mem_map.1 hk'
    obtain ⟨g', hg', hv', hstale'⟩ := mem_unmarked.1 hmem'
    have hnone := (hg g' hg').lookup_eq_none (hmarked g' hg') hv' hstale'
    have hv := AList.mem_lookup_iff.2 hmem
    rw [Option.mem_def, hnone] at hv
    cases hv

/-- What is not marked is live. -/
theorem live_of_unmarked (hover : gs.Pairwise Over) (hmarked : ∀ g ∈ gs, Marked stale g)
    (hg : g ∈ gs) (hv : g.tab.lookup k = some v) (hstale : stale v = false) : Live gs k v := by
  obtain ⟨pre, post, rfl⟩ := List.append_of_mem hg
  refine ⟨pre, g, post, rfl, fun g' hg' => ?_, hv, (hmarked g hg).notMem_moved hv hstale⟩
  have hpair := (List.pairwise_append.1 hover).2.2 g' hg' g List.mem_cons_self
  exact hpair.lookup_eq_none (hmarked g hg) hv hstale

theorem live_cons_of_newest (hnewest : g.moved = ∅) (hv : g.tab.lookup k = some v) :
    Live (g :: gs) k v :=
  ⟨[], g, gs, rfl, List.forall_mem_nil _, hv, by rw [hnewest]; exact Finset.notMem_empty k⟩

/-- A walk goes through what is live and is in the newest generation or not marked. -/
theorem Sound.mem_walked (h : Sound stale (g :: gs)) :
    (⟨k, v⟩ : Sigma fun _ : κ => ν) ∈ walked stale (g :: gs) ↔
      Live (g :: gs) k v ∧ (g.tab.lookup k ≠ none ∨ stale v = false) := by
  have hnewest : g.moved = ∅ := h.newest g rfl
  rw [walked, List.mem_append, ← AList.mem_lookup_iff, Option.mem_def, mem_unmarked]
  constructor
  · rintro (hv | ⟨g', hg', hv, hstale⟩)
    · exact ⟨live_cons_of_newest hnewest hv, Or.inl (by rw [hv]; exact Option.some_ne_none v)⟩
    · exact ⟨live_of_unmarked h.moves h.marked (List.mem_cons_of_mem g hg') hv hstale,
        Or.inr hstale⟩
  · rintro ⟨⟨pre, g', post, heq, hpre, hv, -⟩, hor⟩
    cases pre with
    | nil =>
      obtain ⟨rfl, -⟩ := List.cons.inj heq
      exact Or.inl hv
    | cons g₀ pre =>
      obtain ⟨rfl, rfl⟩ := List.cons.inj heq
      rcases hor with hne | hstale
      · exact absurd (hpre g List.mem_cons_self) hne
      · exact Or.inr ⟨g', List.mem_append_right pre List.mem_cons_self, hv, hstale⟩

/-! ## Operations -/

/-- The newest copy of a key is marked, and given. -/
def moveFrom (mark : ν → ν) (k : κ) :
    List (Generation κ ν) → Option (ν × List (Generation κ ν))
  | [] => none
  | g :: gs =>
    match g.tab.lookup k with
    | some v => some (v, ⟨g.tab.insert k (mark v), insert k g.moved⟩ :: gs)
    | none => (moveFrom mark k gs).map fun r => (r.1, g :: r.2)

/-- An entry that is used moves to the newest generation. -/
def lift (mark : ν → ν) (k : κ) : List (Generation κ ν) → List (Generation κ ν)
  | [] => []
  | g :: gs =>
    match g.tab.lookup k with
    | some _ => g :: gs
    | none =>
      match moveFrom mark k gs with
      | some (v, gs') => ⟨g.tab.insert k v, g.moved⟩ :: gs'
      | none => g :: gs

/-- An entry of the newest generation is stored. -/
def put (k : κ) (v : ν) : List (Generation κ ν) → List (Generation κ ν)
  | [] => []
  | g :: gs => ⟨g.tab.insert k v, g.moved⟩ :: gs

/-- The oldest generation goes and a new one comes. -/
def turn (gs : List (Generation κ ν)) : List (Generation κ ν) := ⟨∅, ∅⟩ :: gs.dropLast

/-- The entries that did not move are not marked. -/
def Stamped (stale : ν → Bool) (g : Generation κ ν) : Prop :=
  ∀ k v, k ∉ g.moved → g.tab.lookup k = some v → stale v = false

/-- `g'` is `g` after some of its entries went or moved. -/
structure Follows (stale : ν → Bool) (g' g : Generation κ ν) : Prop where
  keys : ∀ k, g'.tab.lookup k ≠ none → g.tab.lookup k ≠ none
  moved : g.moved ⊆ g'.moved
  marked : Marked stale g → Marked stale g'
  stamped : Stamped stale g → Stamped stale g'

theorem Follows.refl (g : Generation κ ν) : Follows stale g g :=
  ⟨fun _ hk => hk, Finset.Subset.refl _, id, id⟩

theorem Follows.over_of {h h' : Generation κ ν} (hover : Over g h) (hg : Follows stale g' g)
    (hh : Follows stale h' h) : Over g' h' :=
  fun k hk hk' => hh.moved (hover k (hg.keys k hk) (hh.keys k hk'))

/-- Entries that go. -/
theorem Follows.of_less {tab : AList fun _ : κ => ν}
    (hless : ∀ k v, tab.lookup k = some v → g.tab.lookup k = some v) :
    Follows stale ⟨tab, g.moved⟩ g where
  keys := by
    intro k hk
    obtain ⟨v, hv⟩ := Option.ne_none_iff_exists'.1 hk
    rw [hless k v hv]
    exact Option.some_ne_none v
  moved := Finset.Subset.refl _
  marked := fun h k v hk hv => h k v hk (hless k v hv)
  stamped := fun h k v hk hv => h k v hk (hless k v hv)

/-- An entry that moves. -/
theorem Follows.of_move (hmark : ∀ v, stale (mark v) = true) (hv : g.tab.lookup k = some v) :
    Follows stale ⟨g.tab.insert k (mark v), insert k g.moved⟩ g where
  keys := by
    intro k' hk'
    rcases eq_or_ne k' k with rfl | hne
    · rw [hv]
      exact Option.some_ne_none v
    · rwa [AList.lookup_insert_ne hne] at hk'
  moved := Finset.subset_insert k g.moved
  marked := by
    intro h k' v' hk' hv'
    rcases eq_or_ne k' k with rfl | hne
    · have hval : (g.tab.insert k' (mark v)).lookup k' = some v' := hv'
      rw [AList.lookup_insert] at hval
      exact Option.some.inj hval ▸ hmark v
    · have hval : (g.tab.insert k (mark v)).lookup k' = some v' := hv'
      rw [AList.lookup_insert_ne hne] at hval
      exact h k' v' (Finset.mem_of_mem_insert_of_ne hk' hne) hval
  stamped := by
    intro h k' v' hk' hv'
    have hne : k' ≠ k := fun heq => hk' (heq ▸ Finset.mem_insert_self k g.moved)
    have hval : (g.tab.insert k (mark v)).lookup k' = some v' := hv'
    rw [AList.lookup_insert_ne hne] at hval
    exact h k' v' (fun hmem => hk' (Finset.mem_insert_of_mem hmem)) hval

/-- What is there of a key after an insert is the entry or was there. -/
theorem lookup_insert_ne_none {tab : AList fun _ : κ => ν} {k' : κ}
    (h : (tab.insert k v).lookup k' ≠ none) : k' = k ∨ tab.lookup k' ≠ none := by
  by_cases hk : k' = k
  · exact Or.inl hk
  · rw [AList.lookup_insert_ne hk] at h
    exact Or.inr h

theorem follows_of_mem {gs' : List (Generation κ ν)}
    (hfollows : List.Forall₂ (Follows stale) gs' gs) (hg' : g' ∈ gs') :
    ∃ g ∈ gs, Follows stale g' g := by
  induction hfollows with
  | nil => cases hg'
  | cons hhead _ ih =>
    rcases List.mem_cons.1 hg' with rfl | hg'
    · exact ⟨_, List.mem_cons_self, hhead⟩
    · obtain ⟨g, hg, hfollow⟩ := ih hg'
      exact ⟨g, List.mem_cons_of_mem _ hg, hfollow⟩

theorem pairwise_over {gs' : List (Generation κ ν)}
    (hfollows : List.Forall₂ (Follows stale) gs' gs) (hover : gs.Pairwise Over) :
    gs'.Pairwise Over := by
  induction hfollows with
  | nil => exact List.Pairwise.nil
  | cons hhead hrest ih =>
    obtain ⟨hg, hgs⟩ := List.pairwise_cons.1 hover
    refine List.pairwise_cons.2 ⟨fun x' hx' => ?_, ih hgs⟩
    obtain ⟨x, hx, hfollow⟩ := follows_of_mem hrest hx'
    exact Follows.over_of (hg x hx) hhead hfollow

theorem Sound.follows (h : Sound stale (g :: gs)) {gs' : List (Generation κ ν)}
    (hhead : Follows stale g' g) (hmoved : g'.moved = g.moved)
    (hrest : List.Forall₂ (Follows stale) gs' gs) : Sound stale (g' :: gs') where
  moves := pairwise_over (List.Forall₂.cons hhead hrest) h.moves
  marked := by
    intro x' hx'
    obtain ⟨x, hx, hfollow⟩ := follows_of_mem (List.Forall₂.cons hhead hrest) hx'
    exact hfollow.marked (h.marked x hx)
  newest := by
    intro x hx
    obtain rfl := Option.some.inj hx
    exact hmoved.trans (h.newest g rfl)

theorem Sound.turn (h : Sound stale gs) : Sound stale (turn gs) where
  moves := by
    refine List.pairwise_cons.2 ⟨fun g _ k hk => absurd rfl hk, ?_⟩
    exact h.moves.sublist (List.dropLast_sublist gs)
  marked := by
    intro g hg
    rcases List.mem_cons.1 hg with rfl | hg
    · intro k v hk
      exact absurd hk (Finset.notMem_empty k)
    · exact h.marked g ((List.dropLast_sublist gs).subset hg)
  newest := by
    intro g hg
    obtain rfl := Option.some.inj hg
    rfl

theorem Sound.put (h : Sound stale (g :: gs))
    (hk : ∀ g' ∈ gs, g'.tab.lookup k ≠ none → k ∈ g'.moved) (v : ν) :
    Sound stale (put k v (g :: gs)) where
  moves := by
    obtain ⟨hg, hgs⟩ := List.pairwise_cons.1 h.moves
    refine List.pairwise_cons.2 ⟨fun g' hg' k' hk' hk'' => ?_, hgs⟩
    rcases lookup_insert_ne_none hk' with rfl | hne
    · exact hk g' hg' hk''
    · exact hg g' hg' k' hne hk''
  marked := by
    intro g' hg'
    rcases List.mem_cons.1 hg' with rfl | hg'
    · intro k' v' hmoved
      have hempty : k' ∈ g.moved := hmoved
      rw [h.newest g rfl] at hempty
      exact absurd hempty (Finset.notMem_empty k')
    · exact h.marked g' (List.mem_cons_of_mem g hg')
  newest := by
    intro g' hg'
    obtain rfl := Option.some.inj hg'
    exact h.newest g rfl

theorem moveFrom_some (hmark : ∀ v, stale (mark v) = true) {gs' : List (Generation κ ν)}
    (hmove : moveFrom mark k gs = some (v, gs')) :
    List.Forall₂ (Follows stale) gs' gs ∧
      (gs.Pairwise Over → ∀ g' ∈ gs', g'.tab.lookup k ≠ none → k ∈ g'.moved) := by
  induction gs generalizing gs' with
  | nil => cases hmove
  | cons g gs ih =>
    rw [moveFrom] at hmove
    cases hv : g.tab.lookup k with
    | some w =>
      rw [hv] at hmove
      obtain ⟨rfl, rfl⟩ := Prod.mk.inj (Option.some.inj hmove)
      refine ⟨List.Forall₂.cons (Follows.of_move hmark hv)
        (List.forall₂_same.2 fun x _ => Follows.refl x), fun hover g' hg' hk => ?_⟩
      rcases List.mem_cons.1 hg' with rfl | hg'
      · exact Finset.mem_insert_self k g.moved
      · refine (List.pairwise_cons.1 hover).1 g' hg' k ?_ hk
        rw [hv]
        exact Option.some_ne_none w
    | none =>
      rw [hv] at hmove
      obtain ⟨⟨v', gs''⟩, hrest, heq⟩ := Option.map_eq_some_iff.1 hmove
      obtain ⟨rfl, rfl⟩ := Prod.mk.inj heq
      obtain ⟨hfollows, hmoved⟩ := ih hrest
      refine ⟨List.Forall₂.cons (Follows.refl g) hfollows, fun hover g' hg' hk => ?_⟩
      rcases List.mem_cons.1 hg' with rfl | hg'
      · exact absurd hv hk
      · exact hmoved (List.pairwise_cons.1 hover).2 g' hg' hk

theorem moveFrom_none (hmove : moveFrom mark k gs = none) (hg : g ∈ gs) :
    g.tab.lookup k = none := by
  induction gs with
  | nil => cases hg
  | cons g₀ gs ih =>
    rw [moveFrom] at hmove
    cases hv : g₀.tab.lookup k with
    | some v =>
      rw [hv] at hmove
      cases hmove
    | none =>
      rw [hv] at hmove
      rcases List.mem_cons.1 hg with rfl | hg
      · exact hv
      · exact ih (Option.map_eq_none_iff.1 hmove) hg

/-- An entry of the key can be stored in the newest generation. -/
structure Ready (stale : ν → Bool) (k : κ) (gs : List (Generation κ ν)) : Prop where
  sound : Sound stale gs
  moved : ∀ g ∈ gs.tail, g.tab.lookup k ≠ none → k ∈ g.moved

/-- The older generations have stamped entries, or copies. -/
def OldStamped (stale : ν → Bool) (gs : List (Generation κ ν)) : Prop :=
  ∀ g ∈ gs.tail, Stamped stale g

theorem tail_put : (put k v gs).tail = gs.tail := by
  cases gs <;> rfl

theorem Ready.put (h : Ready stale k gs) (v : ν) : Ready stale k (put k v gs) := by
  refine ⟨?_, ?_⟩
  · cases gs with
    | nil => exact h.sound
    | cons g gs => exact h.sound.put h.moved v
  · rw [tail_put]
    exact h.moved

theorem OldStamped.put (h : OldStamped stale gs) (k : κ) (v : ν) :
    OldStamped stale (put k v gs) := by
  rw [OldStamped, tail_put]
  exact h

/-- The older generations after entries went or moved. -/
theorem stamped_of_follows {gs' : List (Generation κ ν)}
    (hfollows : List.Forall₂ (Follows stale) gs' gs) (h : ∀ g ∈ gs, Stamped stale g) :
    ∀ g' ∈ gs', Stamped stale g' := by
  intro g' hg'
  obtain ⟨g, hg, hfollow⟩ := follows_of_mem hfollows hg'
  exact hfollow.stamped (h g hg)

/-- After a lift an entry of the key can be stored in the newest generation, which has it
if any has. -/
theorem Sound.lift (hmark : ∀ v, stale (mark v) = true) (h : Sound stale gs) (k : κ) :
    Ready stale k (lift mark k gs) ∧
      (OldStamped stale gs → OldStamped stale (Generations.lift mark k gs)) := by
  cases gs with
  | nil => exact ⟨⟨h, fun g hg => nomatch hg⟩, id⟩
  | cons g gs =>
    have hover := List.pairwise_cons.1 h.moves
    rw [Generations.lift]
    cases hv : g.tab.lookup k with
    | some v =>
      refine ⟨⟨h, fun g' hg' hk => hover.1 g' hg' k ?_ hk⟩, id⟩
      rw [hv]
      exact Option.some_ne_none v
    | none =>
      cases hmove : moveFrom mark k gs with
      | none => exact ⟨⟨h, fun g' hg' hk => absurd (moveFrom_none hmove hg') hk⟩, id⟩
      | some r =>
        obtain ⟨hfollows, hmoved⟩ := moveFrom_some hmark hmove
        have hready : Ready stale k (g :: r.2) :=
          ⟨h.follows (Follows.refl g) rfl hfollows, hmoved hover.2⟩
        exact ⟨hready.put r.1, stamped_of_follows hfollows⟩

theorem OldStamped.turn (h : OldStamped stale (g :: gs)) (hg : Stamped stale g) :
    OldStamped stale (turn (g :: gs)) := by
  intro g' hg'
  rcases List.mem_cons.1 ((List.dropLast_sublist (g :: gs)).subset hg') with rfl | hmem
  · exact hg
  · exact h g' hmem

/-- A live entry is in the newest generation or not marked. -/
theorem OldStamped.newest_or (h : OldStamped stale (g :: gs)) (hlive : Live (g :: gs) k v) :
    g.tab.lookup k ≠ none ∨ stale v = false := by
  obtain ⟨pre, g', post, heq, -, hv, hmoved⟩ := hlive
  cases pre with
  | nil =>
    obtain ⟨rfl, -⟩ := List.cons.inj heq
    rw [hv]
    exact Or.inl (Option.some_ne_none v)
  | cons g₀ pre =>
    obtain ⟨rfl, rfl⟩ := List.cons.inj heq
    exact Or.inr (h g' (List.mem_append_right pre List.mem_cons_self) k v hmoved hv)

/-- So a walk gives all that are live. -/
theorem Sound.mem_walked_of_stamped (h : Sound stale (g :: gs))
    (hold : OldStamped stale (g :: gs)) :
    (⟨k, v⟩ : Sigma fun _ : κ => ν) ∈ walked stale (g :: gs) ↔ Live (g :: gs) k v := by
  rw [h.mem_walked, and_iff_left_iff_imp]
  exact hold.newest_or

/-- Generations without entries. -/
theorem sound_of_empty (h : ∀ g ∈ gs, g = ⟨∅, ∅⟩) : Sound stale gs ∧ OldStamped stale gs := by
  refine ⟨⟨?_, ?_, ?_⟩, ?_⟩
  · refine List.pairwise_of_forall_mem_list fun g hg g' _ k hk => ?_
    rw [h g hg] at hk
    exact absurd rfl hk
  · intro g hg k v hk
    rw [h g hg] at hk
    exact absurd hk (Finset.notMem_empty k)
  · intro g hg
    rw [h g (List.mem_of_mem_head? hg)]
  · intro g hg k v _ hv
    rw [h g (List.mem_of_mem_tail hg)] at hv
    cases hv

end Generations
