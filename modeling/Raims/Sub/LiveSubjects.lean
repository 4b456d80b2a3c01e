import Raims.Lib.Run
import Raims.Sub.SubjectWalk

/-!
# A walk shows the live subjects

A subject is live if its newest entry did not move to a newer generation. The tables do
not say what moved: stamp 0 stands for it, and an entry that comes to an older generation
without a stamp is passed over like one that moved.
-/

namespace Raims

open Generations

/-! ## Subjects published -/

/-- The table, and the subjects of which the entry in the older generation moved, which
are not in the source. -/
structure PubTrail where
  tab : PubTab
  moved : Finset RouteKey

namespace PubTrail

/-- An upsert alone; an upsert whose entry is stamped by `next_seqno`; a flip. -/
inductive Event where
  | upsert (key : RouteKey)
  | stamp (key : RouteKey) (curFrame oldFrame : UInt64)
  | flip (winSize : UInt64) (winCount : ℕ) (curTime : UInt64) (doubleTime quadTime : Bool)

def start (curTime windowIval : UInt64) : PubTrail := ⟨.new curTime windowIval, ∅⟩

variable (kv : PubKv) (s : PubTrail)

/-- What moved after an upsert. -/
def movedBy (key : RouteKey) : Finset RouteKey :=
  if s.tab.pub.lookup key = none ∧ s.tab.pubOld.lookup key ≠ none then insert key s.moved
  else s.moved

def step (s : PubTrail) : Event → PubTrail
  | .upsert key => ⟨(s.tab.upsert key).1, s.movedBy key⟩
  | .stamp key curFrame oldFrame => ⟨(s.tab.stamp key curFrame oldFrame).1, s.movedBy key⟩
  | .flip winSize winCount curTime doubleTime quadTime =>
    let r := s.tab.flip kv winSize winCount curTime doubleTime quadTime
    ⟨r.1, if r.2 then ∅ else s.moved⟩

def gens : List (Generation RouteKey Pub) := [⟨s.tab.pub, ∅⟩, ⟨s.tab.pubOld, s.moved⟩]

/-- A walk gives the live subjects, each once, for which `shown` holds. -/
def Gives (shown : RouteKey → Pub → Prop) : Prop :=
  ∃ l, s.tab.walk = some l ∧ (l.map Sigma.fst).Nodup ∧
    ∀ key p, ⟨key, p⟩ ∈ l ↔ Live s.gens key p ∧ shown key p

/-- The entries that come to the older generation are stamped. -/
def FlipsStamped (s : PubTrail) : Event → Prop
  | .flip winSize winCount curTime doubleTime quadTime =>
    (s.tab.flip kv winSize winCount curTime doubleTime quadTime).2 = true →
      ∀ key p, s.tab.pub.lookup key = some p → p.stamp ≠ 0
  | _ => True

def stale (p : Pub) : Bool := decide (p.stamp = 0)

variable {s}

theorem stale_copied (p : Pub) : stale p.copied = true := rfl

theorem gens_upsert (s : PubTrail) (key : RouteKey) :
    gens ⟨(s.tab.upsert key).1, s.movedBy key⟩ = lift Pub.copied key s.gens ∨
      gens ⟨(s.tab.upsert key).1, s.movedBy key⟩ =
        put key (Pub.init 0) (lift Pub.copied key s.gens) := by
  cases hpub : s.tab.pub.lookup key with
  | some p => exact Or.inl (by simp [gens, movedBy, PubTab.upsert, lift, hpub])
  | none =>
    cases hold : s.tab.pubOld.lookup key with
    | some p => exact Or.inl (by simp [gens, movedBy, PubTab.upsert, lift, moveFrom, hpub, hold])
    | none =>
      exact Or.inr (by simp [gens, movedBy, PubTab.upsert, lift, moveFrom, put, hpub, hold])

theorem ready_upsert (h : Sound stale s.gens) (key : RouteKey) :
    Generations.Ready stale key (gens ⟨(s.tab.upsert key).1, s.movedBy key⟩) ∧
      (OldStamped stale s.gens →
        OldStamped stale (gens ⟨(s.tab.upsert key).1, s.movedBy key⟩)) := by
  obtain ⟨hready, hstamped⟩ := h.lift stale_copied key
  rcases gens_upsert s key with heq | heq
  · rw [heq]
    exact ⟨hready, hstamped⟩
  · rw [heq]
    exact ⟨hready.put _, fun hold => (hstamped hold).put _ _⟩

theorem gens_set (t : PubTab) (moved : Finset RouteKey) (key : RouteKey) (p : Pub) :
    gens ⟨t.set key p, moved⟩ = put key p (gens ⟨t, moved⟩) := rfl

theorem sound_step (h : Sound stale s.gens) (e : Event) : Sound stale (s.step kv e).gens := by
  cases e with
  | upsert key => exact (ready_upsert h key).1.sound
  | stamp key curFrame oldFrame =>
    show Sound stale (gens ⟨(s.tab.upsert key).1.set key _, s.movedBy key⟩)
    rw [gens_set]
    exact ((ready_upsert h key).1.put _).sound
  | flip winSize winCount curTime doubleTime quadTime =>
    rcases s.tab.flip_cases kv winSize winCount curTime doubleTime quadTime with heq | heq
    · rw [step, heq]
      exact h
    · rw [step, heq]
      exact h.turn

theorem stamped_step (h : Sound stale s.gens) (hold : OldStamped stale s.gens) {e : Event}
    (he : FlipsStamped kv s e) : OldStamped stale (s.step kv e).gens := by
  cases e with
  | upsert key => exact (ready_upsert h key).2 hold
  | stamp key curFrame oldFrame =>
    show OldStamped stale (gens ⟨(s.tab.upsert key).1.set key _, s.movedBy key⟩)
    rw [gens_set]
    exact ((ready_upsert h key).2 hold).put _ _
  | flip winSize winCount curTime doubleTime quadTime =>
    rcases s.tab.flip_cases kv winSize winCount curTime doubleTime quadTime with heq | heq
    · rw [step, heq]
      exact hold
    · have hnew := he (by rw [heq])
      rw [step, heq]
      refine hold.turn fun key p _ hp => ?_
      rw [stale, decide_eq_false (hnew key p hp)]

theorem sound_start (curTime windowIval : UInt64) :
    Sound stale (start curTime windowIval).gens ∧
      OldStamped stale (start curTime windowIval).gens := by
  apply sound_of_empty
  intro g hg
  rcases List.mem_cons.1 hg with rfl | hg
  · rfl
  · exact List.mem_singleton.1 hg

/-- What a walk gives. -/
theorem walk_eq_walked (s : PubTrail) : s.tab.walk = some (walked stale s.gens) := by
  rw [PubTab.walk_eq]
  show _ = some (s.tab.pub.entries ++ (s.tab.pubOld.entries.filter PubTab.shows ++ []))
  rw [List.append_nil]

theorem gives_of_sound (h : Sound stale s.gens) :
    s.Gives fun key p => s.tab.pub.lookup key ≠ none ∨ p.stamp ≠ 0 := by
  refine ⟨_, s.walk_eq_walked, h.nodup_walked, fun key p => ?_⟩
  refine (h.mem_walked).trans (and_congr_right fun _ => or_congr Iff.rfl ?_)
  exact decide_eq_false_iff_not

/-- All live subjects, if the older generations have stamped entries. -/
theorem gives_of_stamped (h : Sound stale s.gens) (hold : OldStamped stale s.gens) :
    s.Gives fun _ _ => True := by
  refine ⟨_, s.walk_eq_walked, h.nodup_walked, fun key p => ?_⟩
  exact (h.mem_walked_of_stamped hold).trans (and_iff_left trivial).symm

end PubTrail

/-! ## Subjects received -/

/-- The table, and the subjects of which the entries in the older generations moved, which
are not in the source. -/
structure SeqnoTrail where
  tab : SeqnoTab
  movedOld : Finset RouteKey
  movedOld2 : Finset RouteKey

namespace SeqnoTrail

def start (curTime windowIval : UInt64) : SeqnoTrail := ⟨.new curTime windowIval, ∅, ∅⟩

variable (kv : SeqnoKv) (s : SeqnoTrail)

/-- What moved of the middle generation after an upsert. -/
def movedOldBy (key : RouteKey) : Finset RouteKey :=
  if s.tab.tab.lookup key = none ∧ s.tab.tabOld.lookup key ≠ none then insert key s.movedOld
  else s.movedOld

/-- What moved of the oldest generation after an upsert. -/
def movedOld2By (key : RouteKey) : Finset RouteKey :=
  if s.tab.tab.lookup key = none ∧ s.tab.tabOld.lookup key = none ∧
      s.tab.tabOld2.lookup key ≠ none then
    insert key s.movedOld2
  else s.movedOld2

/-- The table is now `t`, after an upsert. -/
def upserted (key : RouteKey) (t : SeqnoTab) : SeqnoTrail :=
  ⟨t, s.movedOldBy key, s.movedOld2By key⟩

def step (s : SeqnoTrail) (e : SeqnoStore.Event) : SeqnoTrail :=
  let t := SeqnoStore.stepTab kv s.tab e
  match e with
  | .store key _ => s.upserted key t
  | .upsert key => s.upserted key t
  | .remove key => s.upserted key t
  | .flip winSize winCount _ doubleTime quadTime =>
    if s.tab.flips kv winSize winCount doubleTime quadTime then ⟨t, ∅, s.movedOld⟩
    else ⟨t, s.movedOld, s.movedOld2⟩

def gens : List (Generation RouteKey SubSeqno) :=
  [⟨s.tab.tab, ∅⟩, ⟨s.tab.tabOld, s.movedOld⟩, ⟨s.tab.tabOld2, s.movedOld2⟩]

/-- A walk gives the live subjects, each once, for which `shown` holds. -/
def Gives (shown : RouteKey → SubSeqno → Prop) : Prop :=
  ∃ l, s.tab.walk = some l ∧ (l.map Sigma.fst).Nodup ∧
    ∀ key p, ⟨key, p⟩ ∈ l ↔ Live s.gens key p ∧ shown key p

/-- The entries that come to an older generation are stamped. -/
def FlipsStamped (s : SeqnoTrail) : SeqnoStore.Event → Prop
  | .flip winSize winCount _ doubleTime quadTime =>
    s.tab.flips kv winSize winCount doubleTime quadTime = true →
      ∀ key p, s.tab.tab.lookup key = some p → p.lastStamp ≠ 0
  | _ => True

def stale (p : SubSeqno) : Bool := decide (p.lastStamp = 0)

variable {s}

theorem stale_copied (p : SubSeqno) : stale p.copied = true := rfl

theorem gens_upsert (s : SeqnoTrail) (key : RouteKey) :
    (s.upserted key (s.tab.upsert key).1).gens = lift SubSeqno.copied key s.gens := by
  cases htab : s.tab.tab.lookup key with
  | some p => simp [gens, upserted, movedOldBy, movedOld2By, SeqnoTab.upsert, lift, htab]
  | none =>
    cases hold : s.tab.tabOld.lookup key with
    | some p =>
      simp [gens, upserted, movedOldBy, movedOld2By, SeqnoTab.upsert, lift, moveFrom, htab,
        hold]
    | none =>
      cases hold2 : s.tab.tabOld2.lookup key <;>
        simp [gens, upserted, movedOldBy, movedOld2By, SeqnoTab.upsert, lift, moveFrom, htab,
          hold, hold2]

theorem ready_upsert (h : Sound stale s.gens) (key : RouteKey) :
    Generations.Ready stale key (s.upserted key (s.tab.upsert key).1).gens ∧
      (OldStamped stale s.gens → OldStamped stale (s.upserted key (s.tab.upsert key).1).gens) := by
  rw [gens_upsert]
  exact h.lift stale_copied key

theorem gens_set (s : SeqnoTrail) (t : SeqnoTab) (key : RouteKey) (p : SubSeqno) :
    (s.upserted key (t.set key p)).gens = put key p (s.upserted key t).gens := rfl

/-- Entries only go when a subject is removed. -/
theorem gens_remove (s : SeqnoTrail) (t : SeqnoTab) (key : RouteKey) (which : ℕ) :
    List.Forall₂ (Generations.Follows stale) (s.upserted key (t.remove key which)).gens
      (s.upserted key t).gens := by
  have herase (tab : RouteVec SubSeqno) (k : RouteKey) (p : SubSeqno)
      (hp : (tab.erase key).lookup k = some p) : tab.lookup k = some p := by
    by_cases hk : k = key
    · subst hk
      rw [AList.lookup_erase] at hp
      cases hp
    · rwa [AList.lookup_erase_ne hk] at hp
  have herased (tab : RouteVec SubSeqno) (c : Prop) [Decidable c] (k : RouteKey) (p : SubSeqno)
      (hp : (if c then tab.erase key else tab).lookup k = some p) : tab.lookup k = some p := by
    split at hp
    · exact herase tab k p hp
    · exact hp
  refine List.Forall₂.cons ?_ (List.Forall₂.cons ?_ (List.Forall₂.cons ?_ List.Forall₂.nil))
  · exact Generations.Follows.of_less (g := ⟨t.tab, ∅⟩) (herase t.tab)
  · exact Generations.Follows.of_less (g := ⟨t.tabOld, s.movedOldBy key⟩) (herased t.tabOld _)
  · exact Generations.Follows.of_less (g := ⟨t.tabOld2, s.movedOld2By key⟩) (herased t.tabOld2 _)

theorem gens_flip (s : SeqnoTrail) (winSize : UInt64) (winCount : ℕ) (curTime : UInt64)
    (doubleTime quadTime : Bool) :
    (s.step kv (.flip winSize winCount curTime doubleTime quadTime)).gens =
      if s.tab.flips kv winSize winCount doubleTime quadTime then turn s.gens else s.gens := by
  simp only [step, SeqnoStore.stepTab, SeqnoTab.flip_eq]
  split
  · rfl
  · rfl

theorem sound_step (h : Sound stale s.gens) (e : SeqnoStore.Event) :
    Sound stale (s.step kv e).gens := by
  cases e with
  | store key value =>
    show Sound stale (s.upserted key ((s.tab.upsert key).1.set key _)).gens
    rw [gens_set]
    exact ((ready_upsert h key).1.put _).sound
  | upsert key => exact (ready_upsert h key).1.sound
  | remove key =>
    cases gens_remove s (s.tab.upsert key).1 key (s.tab.upsert key).2.2 with
    | cons hhead hrest => exact (ready_upsert h key).1.sound.follows hhead rfl hrest
  | flip winSize winCount curTime doubleTime quadTime =>
    rw [gens_flip]
    split
    · exact h.turn
    · exact h

theorem stamped_step (h : Sound stale s.gens) (hold : OldStamped stale s.gens)
    {e : SeqnoStore.Event} (he : FlipsStamped kv s e) :
    OldStamped stale (s.step kv e).gens := by
  cases e with
  | store key value =>
    show OldStamped stale (s.upserted key ((s.tab.upsert key).1.set key _)).gens
    rw [gens_set]
    exact ((ready_upsert h key).2 hold).put _ _
  | upsert key => exact (ready_upsert h key).2 hold
  | remove key =>
    cases gens_remove s (s.tab.upsert key).1 key (s.tab.upsert key).2.2 with
    | cons _ hrest => exact stamped_of_follows hrest ((ready_upsert h key).2 hold)
  | flip winSize winCount curTime doubleTime quadTime =>
    rw [gens_flip]
    split
    · next hflips =>
        refine hold.turn fun key p _ hp => ?_
        exact decide_eq_false (he hflips key p hp)
    · exact hold

theorem sound_start (curTime windowIval : UInt64) :
    Sound stale (start curTime windowIval).gens ∧
      OldStamped stale (start curTime windowIval).gens := by
  apply sound_of_empty
  intro g hg
  rcases List.mem_cons.1 hg with rfl | hg
  · rfl
  · rcases List.mem_cons.1 hg with rfl | hg
    · rfl
    · exact List.mem_singleton.1 hg

/-- What a walk gives. -/
theorem walk_eq_walked (s : SeqnoTrail) : s.tab.walk = some (walked stale s.gens) := by
  rw [SeqnoTab.walk_eq]
  show _ = some (s.tab.tab.entries ++ (s.tab.tabOld.entries.filter SeqnoTab.shows ++
    (s.tab.tabOld2.entries.filter SeqnoTab.shows ++ [])))
  rw [List.append_nil]

theorem gives_of_sound (h : Sound stale s.gens) :
    s.Gives fun key p => s.tab.tab.lookup key ≠ none ∨ p.lastStamp ≠ 0 := by
  refine ⟨_, s.walk_eq_walked, h.nodup_walked, fun key p => ?_⟩
  refine (h.mem_walked).trans (and_congr_right fun _ => or_congr Iff.rfl ?_)
  exact decide_eq_false_iff_not

/-- All live subjects, if the older generations have stamped entries. -/
theorem gives_of_stamped (h : Sound stale s.gens) (hold : OldStamped stale s.gens) :
    s.Gives fun _ _ => True := by
  refine ⟨_, s.walk_eq_walked, h.nodup_walked, fun key p => ?_⟩
  exact (h.mem_walked_of_stamped hold).trans (and_iff_left trivial).symm

end SeqnoTrail

/-! ## Runs -/

theorem PubTrail.sound_foldl (kv : PubKv) {s : PubTrail} (h : Sound stale s.gens)
    (es : List Event) : Sound stale (es.foldl (step kv) s).gens := by
  induction es generalizing s with
  | nil => exact h
  | cons e es ih => exact ih (sound_step kv h e)

theorem PubTrail.stamped_foldl (kv : PubKv) {s : PubTrail} (h : Sound stale s.gens)
    (hold : OldStamped stale s.gens) {es : List Event}
    (hes : Run.AllOk (step kv) (FlipsStamped kv) s es) :
    OldStamped stale (es.foldl (step kv) s).gens := by
  induction es generalizing s with
  | nil => exact hold
  | cons e es ih => exact ih (sound_step kv h e) (stamped_step kv h hold hes.1) hes.2

theorem SeqnoTrail.sound_foldl (kv : SeqnoKv) {s : SeqnoTrail} (h : Sound stale s.gens)
    (es : List SeqnoStore.Event) : Sound stale (es.foldl (step kv) s).gens := by
  induction es generalizing s with
  | nil => exact h
  | cons e es ih => exact ih (sound_step kv h e)

theorem SeqnoTrail.stamped_foldl (kv : SeqnoKv) {s : SeqnoTrail} (h : Sound stale s.gens)
    (hold : OldStamped stale s.gens) {es : List SeqnoStore.Event}
    (hes : Run.AllOk (step kv) (FlipsStamped kv) s es) :
    OldStamped stale (es.foldl (step kv) s).gens := by
  induction es generalizing s with
  | nil => exact hold
  | cons e es ih => exact ih (sound_step kv h e) (stamped_step kv h hold hes.1) hes.2

/-- **A walk gives the live subjects**, each once, and no copy: those of the newest
generation and those that are stamped; and so all of them when the flips of the run found
the newest generation stamped. -/
theorem live_subjects_given (pubKv : PubKv) (seqnoKv : SeqnoKv) (curTime windowIval : UInt64) :
    (∀ es : List PubTrail.Event,
      let s := es.foldl (PubTrail.step pubKv) (PubTrail.start curTime windowIval)
      (s.Gives fun key p => s.tab.pub.lookup key ≠ none ∨ p.stamp ≠ 0) ∧
        (Run.AllOk (PubTrail.step pubKv) (PubTrail.FlipsStamped pubKv)
            (PubTrail.start curTime windowIval) es →
          s.Gives fun _ _ => True)) ∧
      ∀ es : List SeqnoStore.Event,
        let s := es.foldl (SeqnoTrail.step seqnoKv) (SeqnoTrail.start curTime windowIval)
        (s.Gives fun key p => s.tab.tab.lookup key ≠ none ∨ p.lastStamp ≠ 0) ∧
          (Run.AllOk (SeqnoTrail.step seqnoKv) (SeqnoTrail.FlipsStamped seqnoKv)
              (SeqnoTrail.start curTime windowIval) es →
            s.Gives fun _ _ => True) := by
  constructor
  · intro es
    obtain ⟨hsound, hold⟩ := PubTrail.sound_start curTime windowIval
    have h := PubTrail.sound_foldl pubKv hsound es
    refine ⟨PubTrail.gives_of_sound h, fun hes => ?_⟩
    exact PubTrail.gives_of_stamped h (PubTrail.stamped_foldl pubKv hsound hold hes)
  · intro es
    obtain ⟨hsound, hold⟩ := SeqnoTrail.sound_start curTime windowIval
    have h := SeqnoTrail.sound_foldl seqnoKv hsound es
    refine ⟨SeqnoTrail.gives_of_sound h, fun hes => ?_⟩
    exact SeqnoTrail.gives_of_stamped h (SeqnoTrail.stamped_foldl seqnoKv hsound hold hes)

/-- Tables of subjects published that are always large enough to flip. -/
def PubTrail.fullKv : PubKv := ⟨fun _ => 1, fun _ => 0⟩

/-- A subject is published, and its table flips. -/
theorem live_subjects_given_published :
    (([.stamp ⟨5, [97]⟩ 1 0, .flip 0 0 1 true false].foldl (PubTrail.step PubTrail.fullKv)
      (PubTrail.start 0 0)).Gives fun _ _ => True) := by
  apply ((live_subjects_given PubTrail.fullKv SeqnoStore.fullKv 0 0).1 _).2
  refine ⟨trivial, fun _ key p hp => ?_, trivial⟩
  have hmem : p ∈ AList.lookup key
      ((PubTrail.start 0 0).tab.stamp (⟨5, [97]⟩ : RouteKey) 1 0).1.pub := hp
  have hentry := AList.mem_lookup_iff.1 hmem
  have heq := List.mem_singleton.1 hentry
  cases heq
  decide

/-- A subject that comes to the older generation before it is stamped is live, and a walk
passes over it. -/
theorem unstamped_subject_passed :
    ¬ ∀ (kv : PubKv) (curTime windowIval : UInt64) (es : List PubTrail.Event),
      (es.foldl (PubTrail.step kv) (PubTrail.start curTime windowIval)).Gives
        fun _ _ => True := by
  intro h
  obtain ⟨l, hwalk, -, hmem⟩ := h PubTrail.fullKv 0 0
    [.upsert ⟨5, [97]⟩, .flip 0 0 1 true false]
  have hnil : some l = some [] := hwalk.symm.trans (by decide)
  have hlive := (hmem ⟨5, [97]⟩ (Pub.init 0)).2
    ⟨⟨[⟨∅, ∅⟩], ⟨AList.insert ⟨5, [97]⟩ (Pub.init 0) ∅, ∅⟩, [], rfl,
      fun g hg => List.mem_singleton.1 hg ▸ rfl, AList.lookup_insert _, Finset.notMem_empty _⟩,
      trivial⟩
  rw [Option.some.inj hnil] at hlive
  cases hlive

end Raims
