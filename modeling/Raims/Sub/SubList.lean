import Raims.Lib.Slots
import Mathlib.Data.List.Pairwise
import Mathlib.Algebra.Group.Nat.Defs

/-!
# The log of subscriptions (`sub_list.h`)

`SubList` keeps the subscriptions that are active by the sequence number they
started with, in arrays of 64 slots. A stopped subscription leaves a slot with
sequence number 0; a full array whose slots are not all live is compacted. What
the log means is `entries`, the live slots in order; `push` appends to it and
`pop` removes from it.
-/

namespace Raims

inductive SubAction where
  | subJoin | psubStart
deriving DecidableEq

/-- A slot: `seqno[ i ]`, `hash[ i ]` and bit `i` of `action`. -/
structure SubEntry where
  seqno : ℕ
  hash : UInt32
  action : SubAction
deriving DecidableEq

def SUB_ELEM_CAP : ℕ := 64

/-- `SubElem`. The counters have 16 bits. -/
structure SubElem where
  /-- count of dropped -/
  drop : ℕ
  /-- count of elems -/
  count : ℕ
  /-- first index used -/
  first : ℕ
  /-- last index used + 1 -/
  last : ℕ
  slot : ℕ → SubEntry

namespace SubElem

def new : SubElem := ⟨0, 0, 0, 0, fun _ => ⟨0, 0, .subJoin⟩⟩

def isLive (e : SubEntry) : Bool := e.seqno ≠ 0

variable (el : SubElem)

/-- `count - drop == SUB_ELEM_CAP`, which is negative after `count` has wrapped. -/
def isFull : Bool := el.count = el.drop + SUB_ELEM_CAP

def isEmpty : Bool := el.count = el.drop

/-- The part of `push` that moves the live slots to the front. -/
def compact : SubElem :=
  let r := Slots.compact isLive el.slot el.first el.last
  { drop := 0, count := r.2, first := 0, last := r.2, slot := r.1 }

/-- The part of `push` that writes the slot behind the last. -/
def append (e : SubEntry) : SubElem :=
  { el with
    slot := Function.update el.slot el.last e
    last := el.last + 1
    count := (el.count + 1) % 2 ^ 16 }

def push (e : SubEntry) : SubElem × Bool :=
  if el.last = SUB_ELEM_CAP then
    if el.isFull then (el, false) else (el.compact.append e, true)
  else (el.append e, true)

/-- The loop of `exists`: the index of the slot. -/
def findFrom (sno : ℕ) : ℕ → ℕ → Option ℕ
  | 0, _ => none
  | fuel + 1, i =>
    if sno ≤ (el.slot i).seqno then
      if sno < (el.slot i).seqno then none else some i
    else findFrom sno fuel (i + 1)

/-- `exists`: the index of the slot. -/
def find (sno : ℕ) : Option ℕ :=
  if el.isEmpty ∨ (el.slot (el.last - 1)).seqno < sno then none
  else el.findFrom sno (el.last - el.first) el.first

/-- The slots with slot `i` dead. -/
def slotsWithout (i : ℕ) : ℕ → SubEntry :=
  Function.update el.slot i { el.slot i with seqno := 0 }

/-- `pop` of the slot `i`. -/
def dropAt (i : ℕ) : SubElem :=
  let el := { el with slot := el.slotsWithout i, drop := (el.drop + 1) % 2 ^ 16 }
  if el.drop = el.count then { el with first := 0, last := 0 }
  else if i = el.first then
    { el with first := Slots.next isLive el.slot SUB_ELEM_CAP (i + 1) }
  else if i = el.last - 1 then
    { el with last := Slots.prev isLive el.slot SUB_ELEM_CAP (i - 1) + 1 }
  else el

def pop (sno : ℕ) : SubElem × Bool :=
  match el.find sno with
  | none => (el, false)
  | some i => (el.dropAt i, true)

/-- The live slots in order. -/
def entries : List SubEntry := Slots.live isLive el.slot el.first el.last

end SubElem

/-- `SubList`. `pushed` is not in the source: the sequence numbers pushed so far. -/
structure SubList where
  list : List SubElem
  pushed : List ℕ

namespace SubList

def empty : SubList := ⟨[], []⟩

/-- `list.tl->push`. -/
def pushTl (e : SubEntry) : List SubElem → List SubElem
  | [] => []
  | [el] => [(el.push e).1]
  | el :: els => el :: pushTl e els

def push (l : SubList) (sno : ℕ) (h : UInt32) (a : SubAction) : SubList :=
  let els := if l.list.getLast?.all SubElem.isFull then l.list ++ [.new] else l.list
  ⟨pushTl ⟨sno, h, a⟩ els, l.pushed ++ [sno]⟩

def popFrom (sno : ℕ) : List SubElem → List SubElem × Bool
  | [] => ([], false)
  | el :: els =>
    let r := el.pop sno
    if r.2 then (if r.1.isEmpty then els else r.1 :: els, true)
    else (el :: (popFrom sno els).1, (popFrom sno els).2)

def pop (l : SubList) (sno : ℕ) : SubList × Bool :=
  let r := popFrom sno l.list
  (⟨r.1, l.pushed⟩, r.2)

/-- The active subscriptions in the order of their sequence numbers. -/
def entries (l : SubList) : List SubEntry := l.list.flatMap SubElem.entries

end SubList

/-! ## One array -/

/-- The live slots of an array are in order, the first and the last slot in use
are live, and the counters count the live slots. -/
structure SubElem.Inv (el : SubElem) : Prop where
  first_le : el.first ≤ el.last
  last_le : el.last ≤ SUB_ELEM_CAP
  ordered : (el.entries.map SubEntry.seqno).Pairwise (· < ·)
  live_first : el.first < el.last → (el.slot el.first).seqno ≠ 0
  live_last : el.first < el.last → (el.slot (el.last - 1)).seqno ≠ 0
  drop_lt : el.drop < 2 ^ 16
  count_eq : el.count = (el.drop + el.entries.length) % 2 ^ 16

namespace SubElem

variable {el : SubElem}

theorem isLive_iff {e : SubEntry} : isLive e = true ↔ e.seqno ≠ 0 := by
  simp [isLive]

theorem Inv.new : SubElem.new.Inv := by
  refine ⟨le_refl _, Nat.zero_le _, ?_, ?_, ?_, by decide, ?_⟩
  all_goals simp [SubElem.new, entries, Slots.live]

theorem Inv.length_le (h : el.Inv) : el.entries.length ≤ SUB_ELEM_CAP := by
  have hlen := Slots.length_live_le isLive el.slot el.first el.last
  have hlast := h.last_le
  simp only [entries]
  omega

theorem Inv.isEmpty_iff (h : el.Inv) : el.isEmpty = true ↔ el.entries = [] := by
  have hcount := h.count_eq
  have hlen := h.length_le
  have hdrop := h.drop_lt
  rw [SUB_ELEM_CAP] at hlen
  rw [isEmpty, decide_eq_true_iff, ← List.length_eq_zero_iff]
  omega

/-- The array has no room although its counters do not show it: `count` has
wrapped and `drop` has not, with 64 live slots. -/
def Wrapped (el : SubElem) : Prop := el.count + 2 ^ 16 = el.drop + SUB_ELEM_CAP

instance (el : SubElem) : Decidable el.Wrapped := inferInstanceAs (Decidable (_ = _))

theorem Inv.isFull_iff (h : el.Inv) (hw : ¬ el.Wrapped) :
    el.isFull = true ↔ el.entries.length = SUB_ELEM_CAP := by
  have hcount := h.count_eq
  have hlen := h.length_le
  have hdrop := h.drop_lt
  rw [Wrapped, SUB_ELEM_CAP] at hw
  rw [SUB_ELEM_CAP] at hlen ⊢
  rw [isFull, decide_eq_true_iff, SUB_ELEM_CAP]
  omega

/-! ### Push -/

theorem entries_compact (h : el.first ≤ el.last) : el.compact.entries = el.entries :=
  (Slots.compact_spec isLive el.slot h).1

theorem Inv.compact (h : el.Inv) : el.compact.Inv := by
  obtain ⟨hlive, hall, hlen⟩ := Slots.compact_spec isLive el.slot h.first_le
  have hle := h.length_le
  have hcap : (Slots.compact isLive el.slot el.first el.last).2 ≤ SUB_ELEM_CAP := by
    rw [hlen]
    exact hle
  have hpos (i : ℕ) (hi : i < el.compact.last) : (el.compact.slot i).seqno ≠ 0 :=
    isLive_iff.1 (hall i hi)
  refine ⟨Nat.zero_le _, hcap, ?_, fun hlt => hpos _ hlt, fun hlt => hpos _ (by omega),
    Nat.two_pow_pos 16, ?_⟩
  · rw [entries_compact h.first_le]
    exact h.ordered
  · have hcount : el.compact.count = el.entries.length := hlen
    have hdrop : el.compact.drop = 0 := rfl
    rw [entries_compact h.first_le, hcount, hdrop, Nat.zero_add, Nat.mod_eq_of_lt]
    exact lt_of_le_of_lt hle (by decide)

theorem entries_append {e : SubEntry} (h : el.first ≤ el.last) (he : e.seqno ≠ 0) :
    (el.append e).entries = el.entries ++ [e] := by
  have hold : Slots.live isLive (Function.update el.slot el.last e) el.first el.last =
      el.entries := Slots.live_congr fun i _ hi => Function.update_of_ne (by omega) _ _
  show Slots.live isLive (Function.update el.slot el.last e) el.first (el.last + 1) = _
  rw [Slots.live_snoc h, hold, Function.update_self, if_pos (isLive_iff.2 he)]

theorem Inv.append {e : SubEntry} (h : el.Inv) (hlast : el.last < SUB_ELEM_CAP)
    (he : e.seqno ≠ 0) (hgt : ∀ x ∈ el.entries, x.seqno < e.seqno) : (el.append e).Inv := by
  refine ⟨Nat.le_succ_of_le h.first_le, hlast, ?_, fun _ => ?_, fun _ => ?_, h.drop_lt, ?_⟩
  · rw [entries_append h.first_le he, List.map_append, List.pairwise_append]
    refine ⟨h.ordered, List.pairwise_singleton _ _, ?_⟩
    simpa using hgt
  · show (Function.update el.slot el.last e el.first).seqno ≠ 0
    by_cases hlt : el.first = el.last
    · rw [hlt, Function.update_self]
      exact he
    · rw [Function.update_of_ne hlt]
      exact h.live_first (lt_of_le_of_ne h.first_le hlt)
  · show (Function.update el.slot el.last e (el.last + 1 - 1)).seqno ≠ 0
    rw [Nat.add_sub_cancel, Function.update_self]
    exact he
  · rw [entries_append h.first_le he, List.length_append]
    show (el.count + 1) % 2 ^ 16 = (el.drop + (el.entries.length + 1)) % 2 ^ 16
    rw [h.count_eq, Nat.mod_add_mod, Nat.add_assoc]

/-- An array that is not full has room once it is compacted. -/
theorem Inv.compact_last_lt (h : el.Inv) (hw : ¬ el.Wrapped) (hfull : el.isFull = false) :
    el.compact.last < SUB_ELEM_CAP := by
  have hroom : el.entries.length ≠ SUB_ELEM_CAP := by
    intro hlen
    rw [(h.isFull_iff hw).2 hlen] at hfull
    cases hfull
  have hlen : el.compact.last = el.entries.length :=
    (Slots.compact_spec isLive el.slot h.first_le).2.2
  have hle := h.length_le
  omega

/-- A push to an array that is not full appends to the live slots. -/
theorem Inv.push {e : SubEntry} (h : el.Inv) (hw : ¬ el.Wrapped) (hfull : el.isFull = false)
    (he : e.seqno ≠ 0) (hgt : ∀ x ∈ el.entries, x.seqno < e.seqno) :
    (el.push e).1.Inv ∧ (el.push e).1.entries = el.entries ++ [e] := by
  rw [SubElem.push]
  split
  · rw [if_neg (by simp [hfull])]
    have hlast := h.compact_last_lt hw hfull
    rw [← entries_compact h.first_le] at hgt ⊢
    exact ⟨h.compact.append hlast he hgt, entries_append h.compact.first_le he⟩
  · have hlast : el.last < SUB_ELEM_CAP := lt_of_le_of_ne h.last_le ‹_›
    exact ⟨h.append hlast he hgt, entries_append h.first_le he⟩

/-! ### Pop -/

theorem findFrom_some {sno fuel i k : ℕ} (h : el.findFrom sno fuel i = some k) :
    i ≤ k ∧ k < i + fuel ∧ (el.slot k).seqno = sno ∧
      ∀ m, i ≤ m → m < k → (el.slot m).seqno < sno := by
  induction fuel generalizing i with
  | zero => simp [findFrom] at h
  | succ fuel ih =>
    rw [findFrom] at h
    split at h
    · split at h
      · simp at h
      · obtain rfl : i = k := by simpa using h
        exact ⟨le_refl i, by omega, by omega, fun m hm hlt => absurd hlt (by omega)⟩
    · obtain ⟨h1, h2, h3, h4⟩ := ih h
      refine ⟨by omega, by omega, h3, fun m hm hlt => ?_⟩
      by_cases hmi : m = i
      · subst hmi
        omega
      · exact h4 m (by omega) hlt

theorem findFrom_none {sno fuel i : ℕ} (h : el.findFrom sno fuel i = none)
    (hord : ((Slots.live isLive el.slot i (i + fuel)).map SubEntry.seqno).Pairwise (· < ·)) :
    sno ∉ (Slots.live isLive el.slot i (i + fuel)).map SubEntry.seqno := by
  induction fuel generalizing i with
  | zero => simp [Slots.live]
  | succ fuel ih =>
    have hcons : Slots.live isLive el.slot i (i + (fuel + 1)) =
        (if isLive (el.slot i) then [el.slot i] else []) ++
          Slots.live isLive el.slot (i + 1) (i + 1 + fuel) := by
      rw [Slots.live_cons (by omega)]
      congr 2
      omega
    rw [hcons, List.map_append, List.pairwise_append] at hord
    rw [hcons, List.map_append, List.mem_append, not_or]
    rw [findFrom] at h
    split at h
    · split at h
      · -- the slot is beyond `sno`, and so are all that follow
        have hlt : sno < (el.slot i).seqno := ‹_›
        have hlive : isLive (el.slot i) = true := isLive_iff.2 (by omega)
        rw [if_pos hlive] at hord ⊢
        refine ⟨by simpa using hlt.ne, fun hmem => ?_⟩
        have := hord.2.2 (el.slot i).seqno (by simp) sno hmem
        omega
      · simp at h
    · refine ⟨?_, ih h hord.2.1⟩
      split
      · simp only [List.map_cons, List.map_nil, List.mem_singleton]
        omega
      · simp

/-- `exists` finds exactly the live sequence numbers. -/
theorem Inv.find_none (h : el.Inv) {sno : ℕ} (hf : el.find sno = none) :
    sno ∉ el.entries.map SubEntry.seqno := by
  rw [SubElem.find] at hf
  by_cases hnil : el.entries = []
  · simp [hnil]
  · have hlt : el.first < el.last := by
      by_contra hge
      exact hnil (Slots.live_of_le (by omega))
    split at hf
    · next hcase =>
        have hlast : (el.slot (el.last - 1)).seqno < sno := by
          rcases hcase with hempty | hlast
          · exact absurd (h.isEmpty_iff.1 hempty) hnil
          · exact hlast
        -- the last slot has the greatest sequence number
        have hsplit : el.entries = Slots.live isLive el.slot el.first (el.last - 1) ++
            [el.slot (el.last - 1)] := by
          have hs : Slots.live isLive el.slot el.first (el.last - 1 + 1) = _ :=
            Slots.live_snoc (by omega)
          rw [Nat.sub_add_cancel (by omega), if_pos (isLive_iff.2 (h.live_last hlt))] at hs
          exact hs
        have hord := h.ordered
        rw [hsplit, List.map_append, List.pairwise_append] at hord
        rw [hsplit, List.map_append, List.mem_append, not_or]
        refine ⟨fun hmem => ?_, ?_⟩
        · have := hord.2.2 sno hmem (el.slot (el.last - 1)).seqno (by simp)
          omega
        · simp only [List.map_cons, List.map_nil, List.mem_singleton]
          omega
    · have hrange : el.first + (el.last - el.first) = el.last := by omega
      have hnone := findFrom_none hf (by
        rw [hrange]
        exact h.ordered)
      rw [hrange] at hnone
      exact hnone

theorem Inv.find_some (h : el.Inv) {sno i : ℕ} (hf : el.find sno = some i) :
    el.first ≤ i ∧ i < el.last ∧ (el.slot i).seqno = sno ∧ sno ≠ 0 := by
  rw [SubElem.find] at hf
  split at hf
  · simp at hf
  · obtain ⟨h1, h2, h3, h4⟩ := findFrom_some hf
    have hi : i < el.last := by omega
    refine ⟨h1, hi, h3, ?_⟩
    rintro rfl
    -- a search for 0 can only stop at the first slot, which is live
    have hfirst : el.first = i := by
      by_contra hne
      exact Nat.not_lt_zero _ (h4 el.first (le_refl _) (lt_of_le_of_ne h1 hne))
    rw [← hfirst] at h3
    exact h.live_first (by omega) h3

section Drop

variable {i : ℕ}

theorem slotsWithout_of_ne {k : ℕ} (h : k ≠ i) : el.slotsWithout i k = el.slot k :=
  Function.update_of_ne h _ _

theorem isLive_slotsWithout_self : isLive (el.slotsWithout i i) = false := by
  simp [slotsWithout, isLive]

theorem live_slotsWithout (ha : el.first ≤ i) (hb : i < el.last) :
    Slots.live isLive (el.slotsWithout i) el.first el.last =
      Slots.live isLive el.slot el.first i ++ Slots.live isLive el.slot (i + 1) el.last := by
  rw [Slots.live_append ha hb.le, Slots.live_cons hb, isLive_slotsWithout_self]
  rw [Slots.live_congr fun k _ hk => slotsWithout_of_ne (by omega)]
  rw [Slots.live_congr fun k hk _ => slotsWithout_of_ne (by omega)]
  rfl

theorem entries_split (ha : el.first ≤ i) (hb : i < el.last) (hlive : (el.slot i).seqno ≠ 0) :
    el.entries = Slots.live isLive el.slot el.first i ++
      el.slot i :: Slots.live isLive el.slot (i + 1) el.last := by
  rw [entries, Slots.live_append ha hb.le, Slots.live_cons hb, if_pos (isLive_iff.2 hlive)]
  rfl

/-- Without slot `i`, the other sequence numbers are left. -/
theorem Inv.live_slotsWithout_eq (h : el.Inv) (ha : el.first ≤ i) (hb : i < el.last)
    (hlive : (el.slot i).seqno ≠ 0) :
    Slots.live isLive (el.slotsWithout i) el.first el.last =
      el.entries.filter (·.seqno ≠ (el.slot i).seqno) := by
  have hord := h.ordered
  rw [entries_split ha hb hlive, List.map_append, List.pairwise_append, List.map_cons,
    List.pairwise_cons] at hord
  rw [live_slotsWithout ha hb, entries_split ha hb hlive, List.filter_append,
    List.filter_cons_of_neg (by simp)]
  congr 1
  · refine (List.filter_eq_self.2 fun x hx => ?_).symm
    have := hord.2.2 x.seqno (List.mem_map_of_mem hx) (el.slot i).seqno (by simp)
    simpa using this.ne
  · refine (List.filter_eq_self.2 fun x hx => ?_).symm
    have := hord.2.1.1 x.seqno (List.mem_map_of_mem hx)
    simpa using this.ne'

theorem Inv.length_slotsWithout (ha : el.first ≤ i) (hb : i < el.last)
    (hlive : (el.slot i).seqno ≠ 0) :
    (Slots.live isLive (el.slotsWithout i) el.first el.last).length + 1 = el.entries.length := by
  rw [live_slotsWithout ha hb, entries_split ha hb hlive]
  simp only [List.length_append, List.length_cons]
  omega

/-- What is left to show of `dropAt`, once `first` and `last` are known. -/
theorem Inv.of_drop (h : el.Inv) (ha : el.first ≤ i) (hb : i < el.last)
    (hlive : (el.slot i).seqno ≠ 0) {first last : ℕ} (hle : first ≤ last)
    (hcap : last ≤ SUB_ELEM_CAP)
    (hsame : Slots.live isLive (el.slotsWithout i) first last =
      Slots.live isLive (el.slotsWithout i) el.first el.last)
    (hfirst : first < last → (el.slotsWithout i first).seqno ≠ 0)
    (hlast : first < last → (el.slotsWithout i (last - 1)).seqno ≠ 0) :
    (SubElem.mk ((el.drop + 1) % 2 ^ 16) el.count first last (el.slotsWithout i)).Inv ∧
      (SubElem.mk ((el.drop + 1) % 2 ^ 16) el.count first last (el.slotsWithout i)).entries =
        el.entries.filter (·.seqno ≠ (el.slot i).seqno) := by
  have hentries : (SubElem.mk ((el.drop + 1) % 2 ^ 16) el.count first last
      (el.slotsWithout i)).entries = el.entries.filter (·.seqno ≠ (el.slot i).seqno) :=
    hsame.trans (h.live_slotsWithout_eq ha hb hlive)
  refine ⟨⟨hle, hcap, ?_, hfirst, hlast, Nat.mod_lt _ (Nat.two_pow_pos 16), ?_⟩, hentries⟩
  · rw [hentries]
    exact h.ordered.sublist (List.filter_sublist.map _)
  · have hlen := Inv.length_slotsWithout ha hb hlive
    rw [h.live_slotsWithout_eq ha hb hlive] at hlen
    rw [hentries]
    show el.count = ((el.drop + 1) % 2 ^ 16 + _) % 2 ^ 16
    rw [Nat.mod_add_mod, h.count_eq]
    congr 1
    omega

/-- `pop` of a live slot removes its sequence number. -/
theorem Inv.dropAt (h : el.Inv) (ha : el.first ≤ i) (hb : i < el.last)
    (hlive : (el.slot i).seqno ≠ 0) :
    (el.dropAt i).Inv ∧
      (el.dropAt i).entries = el.entries.filter (·.seqno ≠ (el.slot i).seqno) := by
  have hleft := live_slotsWithout ha hb
  have hlen := Inv.length_slotsWithout ha hb hlive
  have hcap := h.last_le
  have hfl : el.first < el.last := by omega
  -- `drop == count` if and only if nothing is left
  have hempty : (el.drop + 1) % 2 ^ 16 = el.count ↔
      (Slots.live isLive (el.slotsWithout i) el.first el.last).length = 0 := by
    have hcount := h.count_eq
    have hle := h.length_le
    rw [SUB_ELEM_CAP] at hle
    omega
  simp only [SubElem.dropAt]
  split
  · next hzero =>
      refine h.of_drop ha hb hlive (le_refl 0) (Nat.zero_le _) ?_ (by simp) (by simp)
      rw [Slots.live_of_le (le_refl 0), List.length_eq_zero_iff.1 (hempty.1 hzero)]
  · next hsome =>
      rw [hempty, List.length_eq_zero_iff] at hsome
      split
      · -- the first slot: the next live one becomes the first
        next hi =>
          subst hi
          rw [Slots.live_of_le (le_refl _), List.nil_append] at hleft
          obtain ⟨x, hx⟩ := List.exists_mem_of_ne_nil _ hsome
          rw [hleft] at hx
          obtain ⟨k, hk1, hk2, hkl, -⟩ := Slots.mem_live.1 hx
          rw [← slotsWithout_of_ne (show k ≠ el.first by omega)] at hkl
          obtain ⟨h1, h2, h3, h4⟩ := Slots.next_spec SUB_ELEM_CAP hk1 (by omega) hkl
          refine h.of_drop ha hb hlive (by omega) hcap ?_ (fun _ => isLive_iff.1 h3) (fun _ => ?_)
          · have hcongr : Slots.live isLive (el.slotsWithout el.first) (el.first + 1) el.last =
                Slots.live isLive el.slot (el.first + 1) el.last :=
              Slots.live_congr fun k hk _ => slotsWithout_of_ne (by omega)
            rw [hleft, ← hcongr]
            rw [Slots.live_append (a := el.first + 1) h1 (by omega), h4, List.nil_append]
          · rw [slotsWithout_of_ne (by omega)]
            exact h.live_last hfl
      · split
        · -- the last slot: the live one before it becomes the last
          next hne hi =>
            have hkl : isLive (el.slotsWithout i el.first) = true := by
              rw [slotsWithout_of_ne (by omega)]
              exact isLive_iff.2 (h.live_first hfl)
            obtain ⟨h1, h2, h3, h4⟩ := Slots.prev_spec SUB_ELEM_CAP (i := i - 1)
              (by omega) (by omega) hkl
            refine h.of_drop ha hb hlive (by omega) (by omega) ?_ (fun _ => isLive_iff.1 hkl)
              (fun _ => ?_)
            · rw [Nat.sub_add_cancel (by omega)] at h4
              rw [Slots.live_append (a := el.first) (b := el.last) (i := i) (by omega) (by omega),
                Slots.live_cons (a := i) (by omega), isLive_slotsWithout_self,
                Slots.live_of_le (a := i + 1) (by omega)]
              rw [Slots.live_append (a := el.first) (b := i) (by omega)
                (show Slots.prev isLive (el.slotsWithout i) SUB_ELEM_CAP (i - 1) + 1 ≤ i by omega), h4]
              simp
            · rw [Nat.add_sub_cancel]
              exact isLive_iff.1 h3
        · next hne hi =>
            refine h.of_drop ha hb hlive h.first_le hcap rfl (fun _ => ?_) (fun _ => ?_)
            · rw [slotsWithout_of_ne (by omega)]
              exact h.live_first hfl
            · rw [slotsWithout_of_ne (by omega)]
              exact h.live_last hfl

end Drop

/-- `pop` succeeds exactly on the live sequence numbers, and removes them. -/
theorem Inv.pop_true (h : el.Inv) {sno : ℕ} (hp : (el.pop sno).2 = true) :
    sno ∈ el.entries.map SubEntry.seqno ∧ (el.pop sno).1.Inv ∧
      (el.pop sno).1.entries = el.entries.filter (·.seqno ≠ sno) := by
  rw [SubElem.pop] at hp ⊢
  cases hf : el.find sno with
  | none => simp [hf] at hp
  | some i =>
    obtain ⟨ha, hb, hseq, hne⟩ := h.find_some hf
    have hmem : el.slot i ∈ el.entries :=
      Slots.mem_live.2 ⟨i, ha, hb, isLive_iff.2 (hseq ▸ hne), rfl⟩
    have hdrop := h.dropAt ha hb (hseq ▸ hne)
    rw [hseq] at hdrop
    exact ⟨List.mem_map.2 ⟨_, hmem, hseq⟩, hdrop⟩

theorem Inv.pop_false (h : el.Inv) {sno : ℕ} (hp : (el.pop sno).2 = false) :
    sno ∉ el.entries.map SubEntry.seqno := by
  rw [SubElem.pop] at hp
  cases hf : el.find sno with
  | none => exact h.find_none hf
  | some i => simp [hf] at hp

end SubElem

/-! ## The whole log -/

/-- Every array is well formed and has a live slot, and the sequence numbers
ascend from array to array. -/
structure SubList.Inv (l : SubList) : Prop where
  elems : ∀ el ∈ l.list, el.Inv ∧ el.entries ≠ []
  ordered : (l.entries.map SubEntry.seqno).Pairwise (· < ·)

namespace SubList

variable {l : SubList}

theorem Inv.empty : SubList.empty.Inv :=
  ⟨by simp [SubList.empty], by simp [SubList.empty, entries]⟩

theorem pushTl_concat (e : SubEntry) (els : List SubElem) (el : SubElem) :
    pushTl e (els ++ [el]) = els ++ [(el.push e).1] := by
  induction els with
  | nil => rfl
  | cons x els ih =>
    cases els with
    | nil => rfl
    | cons y els =>
      simp only [List.cons_append, pushTl, List.cons.injEq, true_and] at ih ⊢
      exact ih

/-- The array that a push writes to has live slots that its counters lost. -/
def TailWrapped (l : SubList) : Prop := ∃ el, l.list.getLast? = some el ∧ el.Wrapped

instance (l : SubList) : Decidable l.TailWrapped :=
  match h : l.list.getLast? with
  | none => isFalse fun ⟨el, he, _⟩ => by simp [h] at he
  | some el =>
    decidable_of_iff el.Wrapped ⟨fun hw => ⟨el, h, hw⟩, fun ⟨el', he, hw⟩ => by
      rw [h] at he
      exact Option.some.inj he ▸ hw⟩

/-- The arrays before the one that a push writes to, and that one. -/
theorem Inv.push_elem (h : l.Inv) (hw : ¬ l.TailWrapped) (sno : ℕ) (hash : UInt32)
    (a : SubAction) :
    ∃ (els : List SubElem) (el : SubElem), (l.push sno hash a).list = els ++ [(el.push ⟨sno, hash, a⟩).1] ∧
      l.entries = els.flatMap SubElem.entries ++ el.entries ∧ el.Inv ∧ ¬ el.Wrapped ∧
      el.isFull = false ∧ ∀ x ∈ els, x.Inv ∧ x.entries ≠ [] := by
  have hnew : ¬ SubElem.new.Wrapped := by decide
  have hentries : SubElem.new.entries = [] := by decide
  rcases List.eq_nil_or_concat l.list with hnil | ⟨els, el, hcat⟩
  · refine ⟨[], SubElem.new, ?_, ?_, SubElem.Inv.new, hnew, rfl, by simp⟩
    · simp [SubList.push, hnil, pushTl]
    · simp [entries, hnil, hentries]
  · rw [List.concat_eq_append] at hcat
    have hlast : l.list.getLast? = some el := by simp [hcat]
    have hel := h.elems el (by simp [hcat])
    by_cases hfull : el.isFull = true
    · refine ⟨els ++ [el], SubElem.new, ?_, ?_, SubElem.Inv.new, hnew, rfl, ?_⟩
      · rw [SubList.push, hlast]
        simp only [Option.all_some, hfull, if_true]
        rw [hcat, pushTl_concat]
      · simp [entries, hcat, hentries]
      · rw [← hcat]
        exact h.elems
    · refine ⟨els, el, ?_, ?_, hel.1, fun hwr => hw ⟨el, hlast, hwr⟩, by simpa using hfull, ?_⟩
      · rw [SubList.push, hlast]
        simp only [Option.all_some, hfull, if_false, Bool.false_eq_true]
        rw [hcat, pushTl_concat]
      · simp [entries, hcat]
      · exact fun x hx => h.elems x (by simp [hcat, hx])

/-- **A push appends to the log**, if its sequence number is greater than those of
the log. -/
theorem Inv.push (h : l.Inv) (hw : ¬ l.TailWrapped) {sno : ℕ} (hsno : sno ≠ 0)
    (hgt : ∀ x ∈ l.entries, x.seqno < sno) (hash : UInt32) (a : SubAction) :
    (l.push sno hash a).Inv ∧ (l.push sno hash a).entries = l.entries ++ [⟨sno, hash, a⟩] := by
  obtain ⟨els, el, hlist, hold, hel, helw, hfull, hels⟩ := h.push_elem hw sno hash a
  obtain ⟨hinv, hent⟩ := hel.push (e := ⟨sno, hash, a⟩) helw hfull hsno
    fun x hx => hgt x (by simp [hold, hx])
  have hentries : (l.push sno hash a).entries = l.entries ++ [⟨sno, hash, a⟩] := by
    rw [entries, hlist, List.flatMap_append, hold]
    simp [hent]
  refine ⟨⟨?_, ?_⟩, hentries⟩
  · intro x hx
    rw [hlist, List.mem_append, List.mem_singleton] at hx
    rcases hx with hx | rfl
    · exact hels x hx
    · exact ⟨hinv, by simp [hent]⟩
  · rw [hentries, List.map_append, List.pairwise_append]
    refine ⟨h.ordered, List.pairwise_singleton _ _, ?_⟩
    simpa using hgt

theorem popFrom_spec {els : List SubElem} (hels : ∀ el ∈ els, el.Inv ∧ el.entries ≠ [])
    (hord : ((els.flatMap SubElem.entries).map SubEntry.seqno).Pairwise (· < ·)) (sno : ℕ) :
    (∀ el ∈ (popFrom sno els).1, el.Inv ∧ el.entries ≠ []) ∧
      (popFrom sno els).1.flatMap SubElem.entries =
        (els.flatMap SubElem.entries).filter (·.seqno ≠ sno) ∧
      ((popFrom sno els).2 = true ↔
        sno ∈ (els.flatMap SubElem.entries).map SubEntry.seqno) := by
  induction els with
  | nil => simp [popFrom]
  | cons el els ih =>
    obtain ⟨hel, hne⟩ := hels el (by simp)
    rw [List.flatMap_cons, List.map_append, List.pairwise_append] at hord
    have hrest := fun x hx => hels x (List.mem_cons_of_mem el hx)
    rw [List.flatMap_cons, List.filter_append, List.map_append, List.mem_append]
    by_cases hp : (el.pop sno).2 = true
    · -- the sequence number is in this array, hence in no other
      obtain ⟨hmem, hinv, hent⟩ := hel.pop_true hp
      have hothers : (els.flatMap SubElem.entries).filter (·.seqno ≠ sno) =
          els.flatMap SubElem.entries := by
        refine List.filter_eq_self.2 fun x hx => ?_
        have := hord.2.2 sno hmem x.seqno (List.mem_map_of_mem hx)
        simpa using this.ne'
      simp only [popFrom, hp, if_true, hothers, ← hent, hmem, true_or, and_true]
      split
      · next hempty => exact ⟨hrest, by simp [hinv.isEmpty_iff.1 hempty]⟩
      · next hempty =>
          rw [hinv.isEmpty_iff] at hempty
          refine ⟨fun x hx => ?_, by simp⟩
          rcases List.mem_cons.1 hx with rfl | hx
          · exact ⟨hinv, hempty⟩
          · exact hrest x hx
    · have hnot := hel.pop_false (by simpa using hp)
      have hkeep : el.entries.filter (·.seqno ≠ sno) = el.entries := by
        refine List.filter_eq_self.2 fun x hx => ?_
        have : x.seqno ≠ sno := fun h => hnot (h ▸ List.mem_map_of_mem hx)
        simpa using this
      obtain ⟨h1, h2, h3⟩ := ih hrest hord.2.1
      simp only [popFrom, hp, if_false, Bool.false_eq_true, hkeep, hnot, false_or]
      refine ⟨fun x hx => ?_, by rw [List.flatMap_cons, h2], h3⟩
      rcases List.mem_cons.1 hx with rfl | hx
      · exact ⟨hel, hne⟩
      · exact h1 x hx

/-- **A pop removes its sequence number from the log**, and succeeds if it was
there. -/
theorem Inv.pop (h : l.Inv) (sno : ℕ) :
    (l.pop sno).1.Inv ∧ (l.pop sno).1.entries = l.entries.filter (·.seqno ≠ sno) ∧
      ((l.pop sno).2 = true ↔ sno ∈ l.entries.map SubEntry.seqno) := by
  obtain ⟨h1, h2, h3⟩ := popFrom_spec h.elems h.ordered sno
  refine ⟨⟨h1, ?_⟩, h2, h3⟩
  show ((List.flatMap SubElem.entries (popFrom sno l.list).1).map SubEntry.seqno).Pairwise (· < ·)
  rw [h2]
  exact h.ordered.sublist (List.filter_sublist.map _)

end SubList

end Raims
