import Raims.Sub.SeqnoTab
import Raims.Lib.AgedMap
import Raims.Lib.Run

/-!
# The three generations as one map

An upsert brings the entry of a subject to the newest generation and leaves a copy
where it was. The newest copy is the one that is found, so the generations are one
map of the latest values, which forgets a subject when three flips have passed it.
`remove` looks for copies in the oldest generation only if it found one in the middle
generation, and so a copy that was brought up from the oldest generation comes back.
-/

namespace Raims

namespace SeqnoTab

variable (t : SeqnoTab) (key : RouteKey)

/-- `flip` returns true. -/
def flips (kv : SeqnoKv) (winSize : UInt64) (winCount : ℕ) (doubleTime quadTime : Bool) : Bool :=
  let sz := kv.tabSize t.tab + t.seqnoHtSize
  let oldSz := if quadTime then kv.tabSize t.tabOld + t.oldHtSize + t.oldHtSize2 else 0
  (winSize * 2 < oldSz ∨ winSize < sz) ∧ (doubleTime ∨ winCount < t.tab.entries.length)

/-- The table after a flip. -/
def turned (curTime : UInt64) : SeqnoTab where
  tab := ∅
  tabOld := t.tab
  tabOld2 := t.tabOld
  flipTime := curTime
  trailingTime := t.flipTime
  seqnoHtSize := 0
  oldHtSize := t.seqnoHtSize
  oldHtSize2 := t.oldHtSize

/-- The newest copy of a subject and its generation. -/
def newest : AgedMap RouteKey SubSeqno := fun key =>
  match t.tab.lookup key with
  | some p => some (p, 0)
  | none =>
    match t.tabOld.lookup key with
    | some p => some (p, 1)
    | none => (t.tabOld2.lookup key).map fun p => (p, 2)

/-- The subject is in the oldest generation and in the newest, and not between. -/
def Straddles : Prop :=
  t.tab.lookup key ≠ none ∧ t.tabOld.lookup key = none ∧ t.tabOld2.lookup key ≠ none

end SeqnoTab

/-- The table and the map of the latest values, which is not in the source. -/
structure SeqnoStore where
  tab : SeqnoTab
  latest : AgedMap RouteKey SubSeqno

namespace SeqnoStore

/-- An upsert with what is stored through the pointer, for a new entry or for the one
that is there; an upsert whose entry is removed; a flip. -/
inductive Event where
  | store (key : RouteKey) (value : Option SubSeqno → SubSeqno)
  | upsert (key : RouteKey)
  | remove (key : RouteKey)
  | flip (winSize : UInt64) (winCount : ℕ) (curTime : UInt64) (doubleTime quadTime : Bool)

def start (curTime windowIval : UInt64) : SeqnoStore := ⟨.new curTime windowIval, .empty⟩

variable (kv : SeqnoKv)

def stepTab (t : SeqnoTab) : Event → SeqnoTab
  | .store key value =>
    let u := t.upsert key
    u.1.set key (value u.2.1)
  | .upsert key => (t.upsert key).1
  | .remove key =>
    let u := t.upsert key
    u.1.remove key u.2.2
  | .flip winSize winCount curTime doubleTime quadTime =>
    t.flip kv winSize winCount curTime doubleTime quadTime

def step (s : SeqnoStore) (e : Event) : SeqnoStore where
  tab := stepTab kv s.tab e
  latest :=
    match e with
    | .store key value => s.latest.put key (value (s.latest.get key))
    | .upsert key => s.latest.touch key
    | .remove key => s.latest.erase key
    | .flip winSize winCount _ doubleTime quadTime =>
      if s.tab.flips kv winSize winCount doubleTime quadTime then s.latest.turn 3 else s.latest

/-- The table finds, and an upsert gives, the latest value of every subject. -/
def Exact (s : SeqnoStore) : Prop :=
  ∀ key, s.tab.find key = s.latest.get key ∧ (s.tab.upsert key).2.1 = s.latest.get key

def RemovesAll (s : SeqnoStore) : Event → Prop
  | .remove key => ¬ s.tab.Straddles key
  | _ => True

end SeqnoStore

/-! ## The newest copies -/

namespace SeqnoTab

variable {t : SeqnoTab} {key k : RouteKey} {s : SubSeqno}

theorem get_newest (t : SeqnoTab) (key : RouteKey) : t.newest.get key = t.find key := by
  unfold AgedMap.get newest find
  cases t.tab.lookup key with
  | some p => rfl
  | none =>
    cases t.tabOld.lookup key with
    | some p => rfl
    | none => cases t.tabOld2.lookup key <;> rfl

/-- A subject whose copies are as before is as before. -/
theorem newest_congr {t' : SeqnoTab} (h1 : t'.tab.lookup key = t.tab.lookup key)
    (h2 : t'.tabOld.lookup key = t.tabOld.lookup key)
    (h3 : t'.tabOld2.lookup key = t.tabOld2.lookup key) : t'.newest key = t.newest key := by
  unfold newest
  rw [h1, h2, h3]

/-- The tables of the other subjects are where they were. -/
theorem upsert_lookup_of_ne (t : SeqnoTab) (hk : k ≠ key) :
    (t.upsert key).1.tab.lookup k = t.tab.lookup k ∧
      (t.upsert key).1.tabOld.lookup k = t.tabOld.lookup k ∧
      (t.upsert key).1.tabOld2.lookup k = t.tabOld2.lookup k := by
  unfold upsert
  split
  · exact ⟨rfl, rfl, rfl⟩
  · split
    · exact ⟨AList.lookup_insert_ne hk, AList.lookup_insert_ne hk, rfl⟩
    · split
      · exact ⟨AList.lookup_insert_ne hk, rfl, AList.lookup_insert_ne hk⟩
      · exact ⟨rfl, rfl, rfl⟩

/-- An entry that is found is in the newest generation after the upsert. -/
theorem upsert_lookup_self (hs : t.find key = some s) :
    (t.upsert key).1.tab.lookup key = some s := by
  unfold find at hs
  cases h1 : t.tab.lookup key with
  | some p =>
    rw [h1] at hs
    simpa [upsert, h1] using hs
  | none =>
    rw [h1] at hs
    cases h2 : t.tabOld.lookup key with
    | some p =>
      rw [h2] at hs
      simpa [upsert, h1, h2] using hs
    | none =>
      rw [h2] at hs
      have h3 : t.tabOld2.lookup key = some s := hs
      simp [upsert, h1, h2, h3]

theorem newest_upsert (t : SeqnoTab) (key : RouteKey) :
    (t.upsert key).1.newest = t.newest.touch key := by
  funext k
  by_cases hk : k = key
  · subst hk
    rw [AgedMap.touch, Function.update_self]
    cases h1 : t.tab.lookup k with
    | some p => simp [upsert, newest, h1]
    | none =>
      cases h2 : t.tabOld.lookup k with
      | some p => simp [upsert, newest, h1, h2]
      | none => cases h3 : t.tabOld2.lookup k <;> simp [upsert, newest, h1, h2, h3]
  · rw [AgedMap.touch, Function.update_of_ne hk]
    obtain ⟨h1, h2, h3⟩ := t.upsert_lookup_of_ne hk
    exact newest_congr h1 h2 h3

theorem newest_set (t : SeqnoTab) (key : RouteKey) (s : SubSeqno) :
    (t.set key s).newest = t.newest.put key s := by
  funext k
  by_cases hk : k = key
  · subst hk
    simp [AgedMap.put, newest, set]
  · rw [AgedMap.put, Function.update_of_ne hk]
    exact newest_congr (AList.lookup_insert_ne hk) rfl rfl

theorem newest_remove_of_ne (hk : k ≠ key) (which : ℕ) :
    (t.remove key which).newest k = t.newest k := by
  have herase (tab : RouteVec SubSeqno) (p : Prop) [Decidable p] :
      (if p then tab.erase key else tab).lookup k = tab.lookup k := by
    split
    · exact AList.lookup_erase_ne hk
    · rfl
  exact newest_congr (AList.lookup_erase_ne hk) (herase _ _) (herase _ _)

/-- The upsert before a remove says where the copy was. -/
theorem upsert_remove_self (t : SeqnoTab) (key : RouteKey) :
    ((t.upsert key).1.remove key (t.upsert key).2.2).newest key = none ↔
      ¬ t.Straddles key := by
  unfold Straddles
  cases h1 : t.tab.lookup key with
  | some p =>
    cases h2 : t.tabOld.lookup key with
    | some p => cases h3 : t.tabOld2.lookup key <;> simp [upsert, remove, newest, h1, h2, h3]
    | none => cases h3 : t.tabOld2.lookup key <;> simp [upsert, remove, newest, h1, h2, h3]
  | none =>
    cases h2 : t.tabOld.lookup key with
    | some p => cases h3 : t.tabOld2.lookup key <;> simp [upsert, remove, newest, h1, h2, h3]
    | none => cases h3 : t.tabOld2.lookup key <;> simp [upsert, remove, newest, h1, h2, h3]

theorem newest_upsert_remove (h : ¬ t.Straddles key) :
    ((t.upsert key).1.remove key (t.upsert key).2.2).newest = t.newest.erase key := by
  funext k
  by_cases hk : k = key
  · subst hk
    rw [AgedMap.erase, Function.update_self]
    exact (upsert_remove_self t k).2 h
  · rw [newest_remove_of_ne hk, newest_upsert, AgedMap.touch, AgedMap.erase,
      Function.update_of_ne hk, Function.update_of_ne hk]

theorem flip_eq (t : SeqnoTab) (kv : SeqnoKv) (winSize : UInt64) (winCount : ℕ)
    (curTime : UInt64) (doubleTime quadTime : Bool) :
    t.flip kv winSize winCount curTime doubleTime quadTime =
      if t.flips kv winSize winCount doubleTime quadTime then t.turned curTime else t := by
  simp only [flip, flips, decide_eq_true_eq, ite_and]
  rfl

theorem newest_turned (t : SeqnoTab) (curTime : UInt64) :
    (t.turned curTime).newest = t.newest.turn 3 := by
  funext k
  have hnone : (∅ : RouteVec SubSeqno).lookup k = none := rfl
  simp only [AgedMap.turn, newest, turned, hnone]
  cases t.tab.lookup k with
  | some p => rfl
  | none =>
    cases t.tabOld.lookup k with
    | some p => rfl
    | none => cases t.tabOld2.lookup k <;> rfl

end SeqnoTab

/-! ## Runs -/

namespace SeqnoStore

variable {kv : SeqnoKv} {s : SeqnoStore}

/-- The map of the latest values is that of the newest copies. -/
def Inv (s : SeqnoStore) : Prop := s.latest = s.tab.newest

theorem Inv.exact (h : s.Inv) : s.Exact := by
  intro key
  rw [SeqnoTab.upsert_entry, h, SeqnoTab.get_newest]
  exact ⟨rfl, rfl⟩

theorem inv_start (curTime windowIval : UInt64) : (start curTime windowIval).Inv := rfl

theorem Inv.step (h : s.Inv) {e : Event} (hok : s.RemovesAll e) : (s.step kv e).Inv := by
  have hlatest : s.latest = s.tab.newest := h
  cases e with
  | store key value =>
    have hget : (s.tab.upsert key).2.1 = s.latest.get key := (h.exact key).2
    show s.latest.put key _ = ((s.tab.upsert key).1.set key (value (s.tab.upsert key).2.1)).newest
    rw [hget, SeqnoTab.newest_set, SeqnoTab.newest_upsert, AgedMap.put_touch, hlatest]
  | upsert key =>
    show s.latest.touch key = (s.tab.upsert key).1.newest
    rw [SeqnoTab.newest_upsert, hlatest]
  | remove key =>
    show s.latest.erase key =
      ((s.tab.upsert key).1.remove key (s.tab.upsert key).2.2).newest
    rw [SeqnoTab.newest_upsert_remove hok, hlatest]
  | flip winSize winCount curTime doubleTime quadTime =>
    show (if s.tab.flips kv winSize winCount doubleTime quadTime then _ else _) =
      (s.tab.flip kv winSize winCount curTime doubleTime quadTime).newest
    rw [SeqnoTab.flip_eq]
    split
    · rw [SeqnoTab.newest_turned, hlatest]
    · exact hlatest

/-- A remove that leaves a copy in the oldest generation is seen. -/
theorem Inv.removesAll_of_exact {e : Event} (hexact : (s.step kv e).Exact) : s.RemovesAll e := by
  cases e with
  | remove key =>
    apply (SeqnoTab.upsert_remove_self s.tab key).1
    have hfind : ((s.tab.upsert key).1.remove key (s.tab.upsert key).2.2).find key = none :=
      (hexact key).1.trans (AgedMap.get_erase_self _ _)
    rw [← SeqnoTab.get_newest] at hfind
    exact Option.map_eq_none_iff.1 hfind
  | store | upsert | flip => trivial

/-- **The generations are one map** exactly as long as no subject is removed while it is
in the newest and the oldest generation and not in the one between. -/
theorem exact_iff_removesAll (kv : SeqnoKv) (curTime windowIval : UInt64) (es : List Event) :
    (∀ k, ((es.take k).foldl (step kv) (start curTime windowIval)).Exact) ↔
      Run.AllOk (step kv) RemovesAll (start curTime windowIval) es := by
  symm
  apply Run.allOk_iff_good (fun (s : SeqnoStore) (h : s.Inv) => h.exact)
  · intro s e h hok
    exact h.step hok
  · intro s e _ hexact
    exact Inv.removesAll_of_exact hexact
  · exact inv_start curTime windowIval

/-- Tables that are always large enough to flip. -/
def fullKv : SeqnoKv := ⟨0, 0, fun _ => 0, fun _ => 1, fun _ _ _ => false⟩

/-- A subject that is stored, passed by two flips, brought up, used once more and
removed. -/
def broughtUp (key : RouteKey) : List Event :=
  let entry : SubSeqno := .init 1 7 1 0 0 1 none ∅
  [.store key fun _ => entry, .flip 0 0 1 true false, .flip 0 0 2 true false, .upsert key,
    .upsert key, .remove key]

theorem removed_subject_found :
    ¬ ∀ (kv : SeqnoKv) (curTime windowIval : UInt64) (es : List Event),
      ((es.foldl (step kv) (start curTime windowIval))).Exact := by
  intro h
  have hfind := (h fullKv 0 0 (broughtUp ⟨5, [97]⟩) ⟨5, [97]⟩).1
  have hsome : ((broughtUp ⟨5, [97]⟩).foldl (step fullKv) (start 0 0)).tab.find ⟨5, [97]⟩ ≠
      none := by
    decide
  exact hsome (hfind.trans rfl)

end SeqnoStore

end Raims
