import Raims.Sub.SubList
import Raims.Lib.Run
import Mathlib.Algebra.Ring.Nat
import Mathlib.Data.BitVec

/-!
# The arrays of the log as they are in memory

`SubElem` has three arrays of 64 slots: the sequence numbers, the hashes, and the
actions, which are the bits of one word. Each operation here does on them what the
operation of `Raims.SubElem` does on whole slots, and so what was proved of the log
holds of the arrays. The counters have 16 bits, and `count` wraps if an array lives
long enough without being compacted.
-/

namespace Raims

/-- `SubElem`. Bit `i` of `action` is set for a pattern. -/
structure SubArray where
  drop : ℕ
  count : ℕ
  first : ℕ
  last : ℕ
  action : BitVec 64
  seqno : ℕ → ℕ
  hash : ℕ → UInt32

def SubAction.toBits : SubAction → BitVec 64
  | .subJoin => 0#64
  | .psubStart => 1#64

def SubAction.ofBits (a : BitVec 64) : SubAction := if a = 0#64 then .subJoin else .psubStart

namespace SubArray

def new : SubArray := ⟨0, 0, 0, 0, 0#64, fun _ => 0, fun _ => 0⟩

/-- `( action >> i ) & 1`. -/
def actionAt (action : BitVec 64) (i : ℕ) : BitVec 64 := (action >>> i) &&& 1#64

/-- `( action & mask ) | act`, with `mask` and `act` for slot `j`. -/
def putAction (action : BitVec 64) (j : ℕ) (a : BitVec 64) : BitVec 64 :=
  (action &&& ~~~(1#64 <<< j)) ||| (a <<< j)

variable (el : SubArray)

def isFull : Bool := el.count = el.drop + SUB_ELEM_CAP

def isEmpty : Bool := el.count = el.drop

/-- The three writes to slot `j`. -/
def write (j sno : ℕ) (h : UInt32) (a : BitVec 64) : SubArray :=
  { el with
    action := putAction el.action j a
    seqno := Function.update el.seqno j sno
    hash := Function.update el.hash j h }

/-- One round of the loop of `push`. -/
def compactStep (s : SubArray × ℕ) (i : ℕ) : SubArray × ℕ :=
  if s.1.seqno i ≠ 0 then
    (s.1.write s.2 (s.1.seqno i) (s.1.hash i) (actionAt s.1.action i), s.2 + 1)
  else s

def compact : SubArray :=
  let s := (List.range' el.first (el.last - el.first)).foldl compactStep (el, 0)
  { s.1 with drop := 0, count := s.2, first := 0, last := s.2 }

def append (sno : ℕ) (h : UInt32) (a : SubAction) : SubArray :=
  { el.write el.last sno h a.toBits with
    last := el.last + 1
    count := (el.count + 1) % 2 ^ 16 }

def push (sno : ℕ) (h : UInt32) (a : SubAction) : SubArray × Bool :=
  if el.last = SUB_ELEM_CAP then
    if el.isFull then (el, false) else (el.compact.append sno h a, true)
  else (el.append sno h a, true)

/-- The loop of `exists`, for as many slots as are in use. -/
def findFrom (sno : ℕ) : ℕ → ℕ → Option ℕ
  | 0, _ => none
  | fuel + 1, i =>
    if sno ≤ el.seqno i then
      if sno < el.seqno i then none else some i
    else findFrom sno fuel (i + 1)

/-- `exists`: the index of the slot. -/
def find (sno : ℕ) : Option ℕ :=
  if el.isEmpty ∨ el.seqno (el.last - 1) < sno then none
  else el.findFrom sno (el.last - el.first) el.first

/-- `while ( seqno[ i ] == 0 ) i++`. -/
def skipUp (seqno : ℕ → ℕ) : ℕ → ℕ → ℕ
  | 0, i => i
  | fuel + 1, i => if seqno i ≠ 0 then i else skipUp seqno fuel (i + 1)

/-- `while ( seqno[ i ] == 0 ) i--`. -/
def skipDown (seqno : ℕ → ℕ) : ℕ → ℕ → ℕ
  | 0, i => i
  | fuel + 1, i => if seqno i ≠ 0 then i else skipDown seqno fuel (i - 1)

/-- `pop` of the slot `i`. -/
def dropAt (i : ℕ) : SubArray :=
  let seqno := Function.update el.seqno i 0
  let el := { el with seqno := seqno, drop := (el.drop + 1) % 2 ^ 16 }
  if el.drop = el.count then { el with first := 0, last := 0 }
  else if i = el.first then { el with first := skipUp seqno SUB_ELEM_CAP (i + 1) }
  else if i = el.last - 1 then { el with last := skipDown seqno SUB_ELEM_CAP (i - 1) + 1 }
  else el

def pop (sno : ℕ) : SubArray × Bool :=
  match el.find sno with
  | none => (el, false)
  | some i => (el.dropAt i, true)

/-- Slot `i` of the three arrays. -/
def slot (i : ℕ) : SubEntry := ⟨el.seqno i, el.hash i, .ofBits (actionAt el.action i)⟩

/-- The array as an array of slots. -/
def toElem : SubElem := ⟨el.drop, el.count, el.first, el.last, el.slot⟩

/-- The live slots: those in use with a sequence number. -/
def entries : List SubEntry :=
  ((List.range' el.first (el.last - el.first)).map el.slot).filter (·.seqno ≠ 0)

/-- A push gives the array its 64th live slot when `count` has wrapped and `drop`
has not. -/
def Overruns : Prop :=
  el.last ≠ SUB_ELEM_CAP ∧ (el.count + 1) % 2 ^ 16 + 2 ^ 16 = el.drop + SUB_ELEM_CAP

instance : Decidable el.Overruns := inferInstanceAs (Decidable (_ ∧ _))

/-- What the array should be: at most 64 live slots, in order, with a live one at
each end, and the counters tell how many there are. -/
structure Sound : Prop where
  last_le : el.last ≤ SUB_ELEM_CAP
  length_le : el.entries.length ≤ SUB_ELEM_CAP
  ordered : (el.entries.map SubEntry.seqno).Pairwise (· < ·)
  first_lt : el.first < el.last
  live_first : el.seqno el.first ≠ 0
  live_last : el.seqno (el.last - 1) ≠ 0
  full : el.isFull = true ↔ el.entries.length = SUB_ELEM_CAP
  empty : el.isEmpty = true ↔ el.entries.length = 0

end SubArray

/-- `SubList`. `live` and `top` are not in the source: the triples pushed and not
popped, and the greatest sequence number pushed. -/
structure SubArrays where
  list : List SubArray
  live : List SubEntry
  top : ℕ

namespace SubArrays

def empty : SubArrays := ⟨[], [], 0⟩

/-- `list.tl->push`. -/
def pushTl (sno : ℕ) (h : UInt32) (a : SubAction) : List SubArray → List SubArray
  | [] => []
  | [el] => [(el.push sno h a).1]
  | el :: els => el :: pushTl sno h a els

def pushList (l : List SubArray) (sno : ℕ) (h : UInt32) (a : SubAction) : List SubArray :=
  pushTl sno h a (if l.getLast?.all SubArray.isFull then l ++ [.new] else l)

def popList (sno : ℕ) : List SubArray → List SubArray × Bool
  | [] => ([], false)
  | el :: els =>
    let r := el.pop sno
    if r.2 then (if r.1.isEmpty then els else r.1 :: els, true)
    else (el :: (popList sno els).1, (popList sno els).2)

def existsList (sno : ℕ) : List SubArray → Bool
  | [] => false
  | el :: els => if (el.find sno).isSome then true else existsList sno els

inductive Event where
  | push (sno : ℕ) (h : UInt32) (a : SubAction)
  | pop (sno : ℕ)

def step (l : SubArrays) : Event → SubArrays
  | .push sno h a => ⟨pushList l.list sno h a, l.live ++ [⟨sno, h, a⟩], sno⟩
  | .pop sno => { l with list := (popList sno l.list).1, live := l.live.filter (·.seqno ≠ sno) }

/-- The sequence numbers pushed are not zero and increase. -/
def Increasing (l : SubArrays) : Event → Prop
  | .push sno _ _ => l.top < sno
  | .pop _ => True

def Fits (l : SubArrays) : Event → Prop
  | .push _ _ _ => ∀ el ∈ l.list.getLast?, ¬ el.Overruns
  | .pop _ => True

/-- The log is the triples pushed and not popped, `pop` and `exists` find exactly
these, and every array is as it should be. -/
structure Exact (l : SubArrays) : Prop where
  entries : l.list.flatMap SubArray.entries = l.live
  pop : ∀ sno, (popList sno l.list).2 = true ↔ ∃ e ∈ l.live, e.seqno = sno
  mem : ∀ sno, existsList sno l.list = true ↔ ∃ e ∈ l.live, e.seqno = sno
  sound : ∀ el ∈ l.list, el.Sound

end SubArrays

/-! ## Arrays of slots -/

namespace SubArray

theorem getLsbD_actionAt (action : BitVec 64) (i k : ℕ) :
    (actionAt action i).getLsbD k = (decide (k = 0) && action.getLsbD i) := by
  unfold actionAt
  rw [BitVec.getLsbD_and, BitVec.getLsbD_ushiftRight, BitVec.getLsbD_one]
  cases k with
  | zero => simp
  | succ k => simp

theorem actionAt_actionAt (action : BitVec 64) (i : ℕ) :
    actionAt (actionAt action i) 0 = actionAt action i := by
  apply BitVec.eq_of_getLsbD_eq
  intro k hk
  rw [getLsbD_actionAt, getLsbD_actionAt, getLsbD_actionAt]
  simp

theorem actionAt_toBits (a : SubAction) : actionAt a.toBits 0 = a.toBits := by
  cases a <;> decide

theorem actionAt_putAction {action a : BitVec 64} {i j : ℕ} (hj : j < 64)
    (ha : actionAt a 0 = a) :
    actionAt (putAction action j a) i = if i = j then a else actionAt action i := by
  have hbit : ∀ k, a.getLsbD k = (decide (k = 0) && a.getLsbD 0) := by
    intro k
    conv_lhs => rw [← ha]
    exact getLsbD_actionAt a 0 k
  have hput : (putAction action j a).getLsbD i =
      if i = j then a.getLsbD 0 else action.getLsbD i := by
    unfold putAction
    rw [BitVec.getLsbD_or, BitVec.getLsbD_and, BitVec.getLsbD_not, BitVec.getLsbD_shiftLeft,
      BitVec.getLsbD_shiftLeft, BitVec.getLsbD_one, hbit (i - j)]
    by_cases hij : i = j
    · subst hij
      simp [hj]
    · rw [if_neg hij]
      by_cases hi : i < 64
      · by_cases hlt : i < j
        · simp [hi, hlt]
        · simp [hi, hlt, show i - j ≠ 0 by omega]
      · simp [hi, BitVec.getLsbD_of_ge action i (by omega)]
  apply BitVec.eq_of_getLsbD_eq
  intro k hk
  rw [getLsbD_actionAt, hput]
  by_cases hij : i = j
  · rw [if_pos hij, if_pos hij]
    exact (hbit k).symm
  · rw [if_neg hij, if_neg hij]
    exact (getLsbD_actionAt action i k).symm

variable {el : SubArray}

theorem ofBits_toBits (a : SubAction) : SubAction.ofBits a.toBits = a := by
  cases a <;> decide

theorem slot_write {j sno : ℕ} {h : UInt32} {a : BitVec 64} (hj : j < SUB_ELEM_CAP)
    (ha : actionAt a 0 = a) :
    (el.write j sno h a).slot = Function.update el.slot j ⟨sno, h, .ofBits a⟩ := by
  ext i
  by_cases hi : i = j
  · subst hi
    simp [slot, write, actionAt_putAction hj ha]
  · simp [slot, write, actionAt_putAction hj ha, hi]

theorem isLive_slot (i : ℕ) : SubElem.isLive (el.slot i) = decide (el.seqno i ≠ 0) := rfl

theorem toElem_new : SubArray.new.toElem = SubElem.new := by
  have hslot : SubArray.new.slot = SubElem.new.slot := by
    funext i
    simp [slot, SubArray.new, SubElem.new, actionAt, SubAction.ofBits]
  unfold toElem
  rw [hslot]
  rfl

/-! ### Push -/

theorem compactStep_slot {s : SubArray × ℕ} (hs : s.2 < SUB_ELEM_CAP) (i : ℕ) :
    ((compactStep s i).1.slot, (compactStep s i).2) =
      Slots.compactStep SubElem.isLive (s.1.slot, s.2) i := by
  unfold compactStep Slots.compactStep
  dsimp only
  rw [isLive_slot]
  by_cases hlive : s.1.seqno i ≠ 0
  · rw [if_pos hlive, if_pos (by simpa using hlive)]
    dsimp only
    rw [slot_write hs (actionAt_actionAt _ _)]
    rfl
  · rw [if_neg hlive, if_neg (by simpa using hlive)]

/-- The loop does on the three arrays what compaction does on slots: it is never
further than the slot it reads. -/
theorem foldl_compactStep_slot (el : SubArray) (a n : ℕ) (h : a + n ≤ SUB_ELEM_CAP) :
    (((List.range' a n).foldl compactStep (el, 0)).1.slot,
        ((List.range' a n).foldl compactStep (el, 0)).2) =
      (List.range' a n).foldl (Slots.compactStep SubElem.isLive) (el.slot, 0) := by
  induction n with
  | zero => rfl
  | succ n ih =>
    have ih := ih (by omega)
    obtain ⟨-, -, hle, -⟩ := Slots.compact_prefix SubElem.isLive el.slot a n
    rw [List.range'_1_concat, List.foldl_append, List.foldl_append, ← ih]
    rw [← ih] at hle
    exact compactStep_slot (by dsimp only at hle; omega) (a + n)

theorem toElem_compact (h : el.toElem.Inv) : el.compact.toElem = el.toElem.compact := by
  have hfold := foldl_compactStep_slot el el.first (el.last - el.first) (by
    have := h.first_le
    have := h.last_le
    simp only [toElem] at *
    omega)
  unfold toElem compact SubElem.compact Slots.compact
  dsimp only
  rw [← hfold]
  rfl

theorem toElem_append (hlast : el.last < SUB_ELEM_CAP) (sno : ℕ) (h : UInt32) (a : SubAction) :
    (el.append sno h a).toElem = el.toElem.append ⟨sno, h, a⟩ := by
  have hslot : (el.append sno h a).slot = Function.update el.slot el.last ⟨sno, h, a⟩ := by
    have hw : (el.write el.last sno h a.toBits).slot = _ :=
      slot_write hlast (actionAt_toBits a)
    rw [ofBits_toBits] at hw
    exact hw
  unfold toElem
  rw [hslot]
  rfl

/-- A push that finds room does on the three arrays what it does on slots. -/
theorem toElem_push (hinv : el.toElem.Inv) (hw : ¬ el.toElem.Wrapped) (hfull : el.isFull = false)
    (sno : ℕ) (h : UInt32) (a : SubAction) :
    (el.push sno h a).1.toElem = (el.toElem.push ⟨sno, h, a⟩).1 := by
  unfold push SubElem.push
  by_cases hlast : el.last = SUB_ELEM_CAP
  · rw [if_pos hlast, if_neg (by simp [hfull]), if_pos (show el.toElem.last = _ from hlast),
      if_neg (by simp [show el.toElem.isFull = false from hfull])]
    have hroom := hinv.compact_last_lt hw hfull
    rw [← toElem_compact hinv] at hroom ⊢
    exact toElem_append hroom sno h a
  · rw [if_neg hlast, if_neg (show el.toElem.last ≠ _ from hlast)]
    exact toElem_append (lt_of_le_of_ne hinv.last_le hlast) sno h a

/-! ### Pop -/

theorem findFrom_toElem (sno fuel i : ℕ) :
    el.findFrom sno fuel i = el.toElem.findFrom sno fuel i := by
  induction fuel generalizing i with
  | zero => rfl
  | succ fuel ih =>
    rw [findFrom, SubElem.findFrom, ih]
    rfl

theorem find_toElem (sno : ℕ) : el.find sno = el.toElem.find sno := by
  unfold find SubElem.find
  rw [findFrom_toElem]
  rfl

theorem skipUp_eq (fuel i : ℕ) :
    skipUp el.seqno fuel i = Slots.next SubElem.isLive el.slot fuel i := by
  induction fuel generalizing i with
  | zero => rfl
  | succ fuel ih =>
    rw [skipUp, Slots.next, ih, isLive_slot]
    simp

theorem skipDown_eq (fuel i : ℕ) :
    skipDown el.seqno fuel i = Slots.prev SubElem.isLive el.slot fuel i := by
  induction fuel generalizing i with
  | zero => rfl
  | succ fuel ih =>
    rw [skipDown, Slots.prev, ih, isLive_slot]
    simp

theorem toElem_dropAt (i : ℕ) : (el.dropAt i).toElem = el.toElem.dropAt i := by
  have hslot : ({ el with seqno := Function.update el.seqno i 0 } : SubArray).slot =
      el.toElem.slotsWithout i := by
    ext k
    all_goals
      by_cases hk : k = i
      · subst hk
        simp [slot, SubElem.slotsWithout, toElem]
      · simp [slot, SubElem.slotsWithout, toElem, hk]
  unfold dropAt SubElem.dropAt
  dsimp only
  rw [← hslot, ← skipUp_eq, ← skipDown_eq]
  by_cases hempty : (el.drop + 1) % 2 ^ 16 = el.count
  · rw [if_pos hempty, if_pos (show (el.toElem.drop + 1) % 2 ^ 16 = el.toElem.count from hempty)]
    rfl
  · rw [if_neg hempty, if_neg (show (el.toElem.drop + 1) % 2 ^ 16 ≠ el.toElem.count from hempty)]
    by_cases hfirst : i = el.first
    · rw [if_pos hfirst, if_pos (show i = el.toElem.first from hfirst)]
      rfl
    · rw [if_neg hfirst, if_neg (show i ≠ el.toElem.first from hfirst)]
      by_cases hlast : i = el.last - 1
      · rw [if_pos hlast, if_pos (show i = el.toElem.last - 1 from hlast)]
        rfl
      · rw [if_neg hlast, if_neg (show i ≠ el.toElem.last - 1 from hlast)]
        rfl

theorem toElem_pop (sno : ℕ) :
    ((el.pop sno).1.toElem, (el.pop sno).2) = el.toElem.pop sno := by
  unfold pop SubElem.pop
  rw [find_toElem]
  cases el.toElem.find sno with
  | none => rfl
  | some i => exact congrArg (·, true) (toElem_dropAt i)

end SubArray

/-! ## The log -/

namespace SubElem

variable {el : SubElem}

theorem Inv.length_of_wrapped (h : el.Inv) (hw : el.Wrapped) :
    el.entries.length = SUB_ELEM_CAP ∧ el.isFull = false := by
  have hcount := h.count_eq
  have hlen := h.length_le
  have hdrop := h.drop_lt
  rw [Wrapped, SUB_ELEM_CAP] at hw
  rw [SUB_ELEM_CAP] at hlen ⊢
  rw [isFull, decide_eq_false_iff_not, SUB_ELEM_CAP]
  omega

theorem Inv.wrapped_push (h : el.Inv) (hw : ¬ el.Wrapped) (hfull : el.isFull = false)
    (e : SubEntry) :
    (el.push e).1.Wrapped ↔ el.last ≠ SUB_ELEM_CAP ∧
      (el.count + 1) % 2 ^ 16 + 2 ^ 16 = el.drop + SUB_ELEM_CAP := by
  unfold SubElem.push
  by_cases hlast : el.last = SUB_ELEM_CAP
  · rw [if_pos hlast, if_neg (by simp [hfull])]
    refine iff_of_false ?_ fun hover => hover.1 hlast
    have hroom := h.compact_last_lt hw hfull
    have hcount : el.compact.count = el.compact.last := rfl
    show ¬ (el.compact.count + 1) % 2 ^ 16 + 2 ^ 16 = 0 + SUB_ELEM_CAP
    rw [SUB_ELEM_CAP] at *
    omega
  · rw [if_neg hlast]
    exact ⟨fun hwr => ⟨hlast, hwr⟩, fun hover => hover.2⟩

/-- With the counters that far apart there is no 65th. -/
theorem Inv.not_overruns {el : SubArray} (h : el.toElem.Inv) (hfull : el.isFull = true) :
    ¬ el.Overruns := by
  have hdrop : el.drop < 2 ^ 16 := h.drop_lt
  rw [SubArray.isFull, decide_eq_true_iff, SUB_ELEM_CAP] at hfull
  rintro ⟨-, hover⟩
  rw [SUB_ELEM_CAP] at hover
  omega

end SubElem

theorem SubList.length_of_mem_popFrom {els : List SubElem} {sno : ℕ}
    (hels : ∀ el ∈ els, el.Inv ∧ el.entries ≠ []) {el : SubElem}
    (hel : el ∈ (popFrom sno els).1) : el ∈ els ∨ el.entries.length < SUB_ELEM_CAP := by
  induction els with
  | nil => simp [popFrom] at hel
  | cons x els ih =>
    have hx := (hels x (by simp)).1
    by_cases hp : (x.pop sno).2 = true
    · simp only [popFrom, hp, if_true] at hel
      split at hel
      · exact Or.inl (List.mem_cons_of_mem x hel)
      · rcases List.mem_cons.mp hel with rfl | hel
        · right
          obtain ⟨hmem, -, hent⟩ := hx.pop_true hp
          obtain ⟨e, he, hsno⟩ := List.mem_map.mp hmem
          rw [hent]
          refine lt_of_lt_of_le ?_ hx.length_le
          exact List.length_filter_lt_length_iff_exists.mpr ⟨e, he, by simp [hsno]⟩
        · exact Or.inl (List.mem_cons_of_mem x hel)
    · simp only [popFrom, hp, if_false, Bool.false_eq_true] at hel
      rcases List.mem_cons.mp hel with rfl | hel
      · exact Or.inl (List.mem_cons_self)
      · rcases ih (fun y hy => hels y (List.mem_cons_of_mem x hy)) hel with hel | hlt
        · exact Or.inl (List.mem_cons_of_mem x hel)
        · exact Or.inr hlt

namespace SubArrays

variable {l : SubArrays}

theorem pushTl_concat (sno : ℕ) (h : UInt32) (a : SubAction) (els : List SubArray)
    (el : SubArray) : pushTl sno h a (els ++ [el]) = els ++ [(el.push sno h a).1] := by
  induction els with
  | nil => rfl
  | cons x els ih =>
    cases els with
    | nil => rfl
    | cons y els =>
      simp only [List.cons_append, pushTl, List.cons.injEq, true_and] at ih ⊢
      exact ih

theorem popList_toElem (sno : ℕ) (els : List SubArray) :
    ((popList sno els).1.map SubArray.toElem, (popList sno els).2) =
      SubList.popFrom sno (els.map SubArray.toElem) := by
  induction els with
  | nil => rfl
  | cons el els ih =>
    rw [List.map_cons, popList, SubList.popFrom, ← ih, ← SubArray.toElem_pop]
    dsimp only
    by_cases hp : (el.pop sno).2 = true
    · rw [if_pos hp, if_pos hp]
      have hempty : (el.pop sno).1.toElem.isEmpty = (el.pop sno).1.isEmpty := rfl
      rw [hempty]
      by_cases he : (el.pop sno).1.isEmpty = true
      · rw [if_pos he, if_pos he]
      · rw [if_neg he, if_neg he]
        rfl
    · rw [if_neg hp, if_neg hp]
      rfl

/-- The log of slots that the arrays stand for. -/
def toLog (l : SubArrays) : SubList := ⟨l.list.map SubArray.toElem, []⟩

structure Inv (l : SubArrays) : Prop where
  log : l.toLog.Inv
  room : ∀ el ∈ l.list, ¬ el.toElem.Wrapped
  live : l.toLog.entries = l.live
  top : ∀ e ∈ l.live, e.seqno ≤ l.top

theorem Inv.elem (h : l.Inv) {el : SubArray} (hel : el ∈ l.list) :
    el.toElem.Inv ∧ el.toElem.entries ≠ [] :=
  h.log.elems el.toElem (List.mem_map_of_mem hel)

theorem Inv.sound (h : l.Inv) {el : SubArray} (hel : el ∈ l.list) : el.Sound := by
  obtain ⟨hinv, hne⟩ := h.elem hel
  have hlt : el.first < el.last := by
    by_contra hge
    exact hne (Slots.live_of_le (Nat.not_lt.mp hge))
  refine ⟨hinv.last_le, hinv.length_le, hinv.ordered, hlt, hinv.live_first hlt,
    hinv.live_last hlt, hinv.isFull_iff (h.room el hel), ?_⟩
  rw [List.length_eq_zero_iff]
  exact hinv.isEmpty_iff

theorem Inv.exists_iff (h : l.Inv) (sno : ℕ) :
    existsList sno l.list = true ↔ sno ∈ l.toLog.entries.map SubEntry.seqno := by
  have hall : ∀ els : List SubArray, (∀ el ∈ els, el.toElem.Inv) →
      (existsList sno els = true ↔
        sno ∈ ((els.map SubArray.toElem).flatMap SubElem.entries).map SubEntry.seqno) := by
    intro els hels
    induction els with
    | nil => simp [existsList]
    | cons el els ih =>
      have hel := hels el List.mem_cons_self
      have ih := ih fun x hx => hels x (List.mem_cons_of_mem el hx)
      rw [existsList, List.map_cons, List.flatMap_cons, List.map_append, List.mem_append]
      rw [SubArray.find_toElem]
      cases hf : el.toElem.find sno with
      | none =>
        have hnot := hel.find_none hf
        simp [ih, hnot]
      | some i =>
        obtain ⟨ha, hb, hseq, hne⟩ := hel.find_some hf
        have hmem : el.toElem.slot i ∈ el.toElem.entries :=
          Slots.mem_live.2 ⟨i, ha, hb, SubElem.isLive_iff.2 (hseq ▸ hne), rfl⟩
        have hin : sno ∈ el.toElem.entries.map SubEntry.seqno :=
          List.mem_map.mpr ⟨_, hmem, hseq⟩
        exact iff_of_true rfl (Or.inl hin)
  exact hall l.list fun el hel => (h.elem hel).1

theorem Inv.exact (h : l.Inv) : l.Exact := by
  refine ⟨?_, fun sno => ?_, fun sno => ?_, fun el hel => h.sound hel⟩
  · rw [← h.live]
    exact (List.flatMap_map SubArray.toElem SubElem.entries l.list).symm
  · rw [← h.live, ← List.mem_map]
    have hpop := (h.log.pop sno).2.2
    rw [← hpop]
    show _ ↔ (SubList.popFrom sno (l.list.map SubArray.toElem)).2 = true
    rw [← popList_toElem]
  · rw [← h.live, ← List.mem_map]
    exact h.exists_iff sno

/-- The array that a push writes to: the last, if it has room, or a new one. -/
theorem Inv.push_elem (h : l.Inv) (sno : ℕ) (hash : UInt32) (a : SubAction) :
    ∃ (els : List SubArray) (el : SubArray),
      pushList l.list sno hash a = els ++ [(el.push sno hash a).1] ∧
      (l.toLog.push sno hash a).list =
        els.map SubArray.toElem ++ [(el.toElem.push ⟨sno, hash, a⟩).1] ∧
      el.toElem.Inv ∧ ¬ el.toElem.Wrapped ∧ el.isFull = false ∧ (∀ x ∈ els, x ∈ l.list) ∧
      (∀ x ∈ el.entries, x ∈ l.live) ∧ (l.Fits (.push sno hash a) ↔ ¬ el.Overruns) := by
  have hfits : ∀ {el : SubArray}, l.list.getLast? = some el →
      (l.Fits (.push sno hash a) ↔ ¬ el.Overruns) := by
    intro el hlast
    unfold Fits
    rw [hlast]
    simp
  have hnew : SubArray.new.toElem.Inv ∧ ¬ SubArray.new.toElem.Wrapped := by
    rw [SubArray.toElem_new]
    exact ⟨SubElem.Inv.new, by decide⟩
  rcases List.eq_nil_or_concat l.list with hnil | ⟨els, el, hcat⟩
  · refine ⟨[], SubArray.new, ?_, ?_, hnew.1, hnew.2, rfl, by simp, ?_,
      iff_of_true (fun el hel => ?_) (by decide)⟩
    · simp [pushList, hnil, pushTl]
    · simp [toLog, SubList.push, hnil, SubList.pushTl, SubArray.toElem_new]
    · simp [SubArray.entries, SubArray.new]
    · simp [hnil] at hel
  · rw [List.concat_eq_append] at hcat
    have hlast : l.list.getLast? = some el := by simp [hcat]
    have hlast' : (l.list.map SubArray.toElem).getLast? = some el.toElem := by simp [hcat]
    have hmem : el ∈ l.list := by simp [hcat]
    by_cases hfull : el.isFull = true
    · refine ⟨els ++ [el], SubArray.new, ?_, ?_, hnew.1, hnew.2, rfl, ?_, ?_,
        iff_of_true ((hfits hlast).mpr ((h.elem hmem).1.not_overruns hfull)) (by decide)⟩
      · rw [pushList, hlast]
        simp only [Option.all_some, hfull, if_true]
        rw [hcat, pushTl_concat]
      · rw [SubList.push, toLog, hlast']
        simp only [Option.all_some, show el.toElem.isFull = true from hfull, if_true]
        rw [SubList.pushTl_concat, ← hcat, SubArray.toElem_new]
      · intro x hx
        rw [hcat]
        exact hx
      · simp [SubArray.entries, SubArray.new]
    · refine ⟨els, el, ?_, ?_, (h.elem hmem).1, h.room el hmem, by simpa using hfull, ?_, ?_,
        hfits hlast⟩
      · rw [pushList, hlast]
        simp only [Option.all_some, hfull, if_false, Bool.false_eq_true]
        rw [hcat, pushTl_concat]
      · rw [SubList.push, toLog, hlast']
        simp only [Option.all_some, show ¬ el.toElem.isFull = true from hfull, if_false,
          Bool.false_eq_true]
        rw [hcat, List.map_append, List.map_singleton, SubList.pushTl_concat]
      · intro x hx
        rw [hcat]
        exact List.mem_append_left _ hx
      · intro x hx
        rw [← h.live]
        exact List.mem_flatMap.mpr ⟨el.toElem, List.mem_map_of_mem hmem, hx⟩

theorem Inv.not_tailWrapped (h : l.Inv) : ¬ l.toLog.TailWrapped := by
  rintro ⟨el, hlast, hw⟩
  obtain ⟨x, hx, rfl⟩ := List.mem_map.mp (List.mem_of_getLast? hlast)
  exact h.room x hx hw

theorem Inv.push (h : l.Inv) {sno : ℕ} {hash : UInt32} {a : SubAction} (hsno : l.top < sno)
    (hfits : l.Fits (.push sno hash a)) : (l.step (.push sno hash a)).Inv := by
  have hgt : ∀ x ∈ l.toLog.entries, x.seqno < sno := fun x hx =>
    lt_of_le_of_lt (h.top x (h.live ▸ hx)) hsno
  obtain ⟨hlog, hent⟩ :=
    h.log.push h.not_tailWrapped (Nat.ne_zero_of_lt hsno) hgt hash a
  obtain ⟨els, el, hlist, hlist', hel, hw, hfull, hels, -, hover⟩ := h.push_elem sno hash a
  have htl := SubArray.toElem_push hel hw hfull sno hash a
  have hmap : (pushList l.list sno hash a).map SubArray.toElem =
      (l.toLog.push sno hash a).list := by
    rw [hlist, hlist', List.map_append, List.map_singleton, htl]
  have hno : ¬ el.Overruns := hover.mp hfits
  refine ⟨⟨?_, ?_⟩, ?_, ?_, ?_⟩
  · intro x hx
    exact hlog.elems x (hmap ▸ hx)
  · show (((pushList l.list sno hash a).map SubArray.toElem).flatMap SubElem.entries
      |>.map SubEntry.seqno).Pairwise (· < ·)
    rw [hmap]
    exact hlog.ordered
  · intro x hx
    have hx : x ∈ pushList l.list sno hash a := hx
    rw [hlist, List.mem_append, List.mem_singleton] at hx
    rcases hx with hx | rfl
    · exact h.room x (hels x hx)
    · rw [htl, hel.wrapped_push hw hfull]
      exact hno
  · show ((pushList l.list sno hash a).map SubArray.toElem).flatMap SubElem.entries = _
    rw [hmap]
    exact hent.trans (congrArg (· ++ _) h.live)
  · intro e he
    rcases List.mem_append.mp he with he | he
    · exact (lt_of_le_of_lt (h.top e he) hsno).le
    · rw [List.mem_singleton.mp he]
      exact le_refl sno

/-- Otherwise the array has 64 live slots and is not full. -/
theorem Inv.fits_of_exact (h : l.Inv) {sno : ℕ} {hash : UInt32} {a : SubAction}
    (hsno : l.top < sno) (hexact : (l.step (.push sno hash a)).Exact) :
    l.Fits (.push sno hash a) := by
  obtain ⟨els, el, hlist, -, hel, hw, hfull, -, hent, hfits⟩ := h.push_elem sno hash a
  rw [hfits]
  intro hover
  have hmem : (el.push sno hash a).1 ∈ (l.step (.push sno hash a)).list := by
    show _ ∈ pushList l.list sno hash a
    rw [hlist]
    simp
  have hpush := SubArray.toElem_push hel hw hfull sno hash a
  have hinv : (el.push sno hash a).1.toElem.Inv := by
    rw [hpush]
    exact (hel.push hw hfull (Nat.ne_zero_of_lt hsno) fun x hx =>
      lt_of_le_of_lt (h.top x (hent x hx)) hsno).1
  have hwr : (el.push sno hash a).1.toElem.Wrapped := by
    rw [hpush, hel.wrapped_push hw hfull]
    exact hover
  obtain ⟨hlen, hnot⟩ := hinv.length_of_wrapped hwr
  have htrue := (hexact.sound _ hmem).full.mpr hlen
  rw [show (el.push sno hash a).1.isFull = false from hnot] at htrue
  cases htrue

theorem Inv.pop (h : l.Inv) (sno : ℕ) : (l.step (.pop sno)).Inv := by
  obtain ⟨hlog, hent, -⟩ := h.log.pop sno
  have hmap : (popList sno l.list).1.map SubArray.toElem = (l.toLog.pop sno).1.list :=
    congrArg Prod.fst (popList_toElem sno l.list)
  refine ⟨⟨?_, ?_⟩, ?_, ?_, ?_⟩
  · intro x hx
    exact hlog.elems x (hmap ▸ hx)
  · show (((popList sno l.list).1.map SubArray.toElem).flatMap SubElem.entries
      |>.map SubEntry.seqno).Pairwise (· < ·)
    rw [hmap]
    exact hlog.ordered
  · intro x hx hw
    have hx : x.toElem ∈ (l.toLog.pop sno).1.list := hmap ▸ List.mem_map_of_mem hx
    rcases SubList.length_of_mem_popFrom h.log.elems hx with hold | hlt
    · obtain ⟨y, hy, heq⟩ := List.mem_map.mp hold
      exact h.room y hy (heq ▸ hw)
    · exact hlt.ne ((hlog.elems _ hx).1.length_of_wrapped hw).1
  · show ((popList sno l.list).1.map SubArray.toElem).flatMap SubElem.entries = _
    rw [hmap]
    exact hent.trans (congrArg (List.filter _) h.live)
  · intro e he
    exact h.top e (List.mem_of_mem_filter he)

theorem Inv.empty : SubArrays.empty.Inv :=
  ⟨SubList.Inv.empty, by simp [SubArrays.empty], rfl, by simp [SubArrays.empty]⟩

/-- **The log is exact** in every state of a run exactly when no push gives an array
its 64th live slot with `count` wrapped and `drop` not. -/
theorem exact_iff_fits {es : List Event} (hes : Run.AllOk step Increasing empty es) :
    (∀ k, ((es.take k).foldl step empty).Exact) ↔ Run.AllOk step Fits empty es := by
  refine (Run.allOk_iff_good_of_allOk (fun _ h => h.exact) ?_ ?_ Inv.empty hes).symm
  · intro l e h hinc hfits
    cases e with
    | push sno hash a => exact h.push hinc hfits
    | pop sno => exact h.pop sno
  · intro l e h hinc hexact
    cases e with
    | push sno hash a => exact h.fits_of_exact hinc hexact
    | pop sno => trivial

instance decidableIncreasing : ∀ (l : SubArrays) (e : Event), Decidable (l.Increasing e)
  | l, .push sno _ _ => inferInstanceAs (Decidable (l.top < sno))
  | _, .pop _ => isTrue trivial

instance decidableFits : ∀ (l : SubArrays) (e : Event), Decidable (l.Fits e)
  | l, .push _ _ _ => inferInstanceAs (Decidable (∀ el ∈ l.list.getLast?, ¬ el.Overruns))
  | _, .pop _ => isTrue trivial

def twoPushes : List Event := [.push 5 17 .subJoin, .push 9 23 .psubStart, .pop 5]

theorem exact_iff_fits_twoPushes :
    Run.AllOk step Increasing empty twoPushes ∧ Run.AllOk step Fits empty twoPushes ∧
      ∀ k, ((twoPushes.take k).foldl step empty).Exact := by
  have hinc : Run.AllOk step Increasing empty twoPushes := by decide
  have hfits : Run.AllOk step Fits empty twoPushes := by decide
  exact ⟨hinc, hfits, (exact_iff_fits hinc).mpr hfits⟩

/-! ### The counter wraps -/

/-- A subscription that comes and goes, `m` times, behind one that stays. -/
def churn : ℕ → ℕ → List Event
  | _, 0 => []
  | n, m + 1 => .push (n + 2) 0 .subJoin :: .pop (n + 2) :: churn (n + 1) m

/-- One array, with one live slot, that has dropped `n`. -/
structure Churned (n : ℕ) (l : SubArrays) : Prop where
  list : ∃ action seqno hash, l.list = [⟨n, n + 1, 0, 1, action, seqno, hash⟩] ∧ seqno 0 = 1
  live : l.live = [⟨1, 0, .subJoin⟩]
  top : l.top = n + 1

theorem Churned.step {n : ℕ} (h : Churned n l) (hn : n + 2 < 2 ^ 16) :
    Churned (n + 1) ((l.step (.push (n + 2) 0 .subJoin)).step (.pop (n + 2))) := by
  obtain ⟨⟨action, seqno, hash, hlist, hone⟩, hlive, htop⟩ := h
  let el : SubArray := ⟨n, n + 1, 0, 1, action, seqno, hash⟩
  let seqno' := Function.update seqno 1 (n + 2)
  have hpush : pushList l.list (n + 2) 0 .subJoin = [el.append (n + 2) 0 .subJoin] := by
    rw [hlist]
    simp [pushList, pushTl, SubArray.isFull, SubArray.push, SUB_ELEM_CAP, el]
  have happend : el.append (n + 2) 0 .subJoin = ⟨n, n + 2, 0, 2,
      SubArray.putAction action 1 0#64, seqno', Function.update hash 1 0⟩ := by
    simp [SubArray.append, SubArray.write, SubAction.toBits, el, seqno',
      Nat.mod_eq_of_lt (show n + 1 + 1 < 65536 by omega)]
  have hfind : (el.append (n + 2) 0 .subJoin).find (n + 2) = some 1 := by
    rw [happend]
    simp [SubArray.find, SubArray.isEmpty, SubArray.findFrom, seqno', hone]
  -- the slot goes, and the live one before it is the last again
  have hdrop : (el.append (n + 2) 0 .subJoin).dropAt 1 = ⟨n + 1, n + 2, 0, 1,
      SubArray.putAction action 1 0#64, Function.update seqno' 1 0,
      Function.update hash 1 0⟩ := by
    rw [happend]
    simp [SubArray.dropAt, Nat.mod_eq_of_lt (show n + 1 < 65536 by omega), SUB_ELEM_CAP,
      SubArray.skipDown, seqno', hone]
  have hpop : (popList (n + 2) [el.append (n + 2) 0 .subJoin]).1 =
      [(el.append (n + 2) 0 .subJoin).dropAt 1] := by
    have hne : ((el.append (n + 2) 0 .subJoin).dropAt 1).isEmpty = false := by
      rw [hdrop]
      simp [SubArray.isEmpty]
    simp [popList, SubArray.pop, hfind, hne]
  refine ⟨⟨SubArray.putAction action 1 0#64, Function.update seqno' 1 0,
    Function.update hash 1 0, ?_, ?_⟩, ?_, rfl⟩
  · show (popList (n + 2) (pushList l.list (n + 2) 0 .subJoin)).1 = _
    rw [hpush, hpop, hdrop]
  · simp [seqno', hone]
  · show (l.live ++ [SubEntry.mk (n + 2) 0 .subJoin]).filter (fun e => e.seqno ≠ n + 2) = _
    rw [hlive]
    simp

theorem Churned.run {n m : ℕ} (h : Churned n l) (hm : n + m + 1 < 2 ^ 16) :
    Run.AllOk SubArrays.step Increasing l (churn n m) ∧
      Churned (n + m) ((churn n m).foldl SubArrays.step l) := by
  induction m generalizing n l with
  | zero => exact ⟨trivial, h⟩
  | succ m ih =>
    obtain ⟨hok, hch⟩ := ih (h.step (by omega)) (by omega)
    rw [Nat.add_right_comm] at hch
    refine ⟨⟨?_, trivial, hok⟩, hch⟩
    show l.top < n + 2
    rw [h.top]
    exact Nat.lt_succ_self _

/-- Subscriptions that stay. -/
def pushes : ℕ → ℕ → List Event
  | _, 0 => []
  | n, m + 1 => .push (n + 1) 0 .subJoin :: pushes (n + 1) m

/-- One array with `k` live slots, whose counters can not show 64. -/
structure Filling (n k : ℕ) (l : SubArrays) : Prop where
  list : ∃ el : SubArray, l.list = [el] ∧ el.last = k ∧ el.drop = 65472 ∧ el.count < 2 ^ 16
  live : l.live.length = k
  top : l.top = n

theorem Filling.not_full {n k : ℕ} (h : Filling n k l) {el : SubArray} (hel : el ∈ l.list) :
    el.isFull = false := by
  obtain ⟨⟨x, hlist, -, hdrop, hcount⟩, -, -⟩ := h
  rw [hlist, List.mem_singleton] at hel
  subst hel
  rw [SubArray.isFull, hdrop, decide_eq_false_iff_not]
  exact hcount.ne

theorem Filling.run {n k m : ℕ} (h : Filling n k l) (hm : k + m ≤ 64) :
    Run.AllOk SubArrays.step Increasing l (pushes n m) ∧
      Filling (n + m) (k + m) ((pushes n m).foldl SubArrays.step l) := by
  induction m generalizing n k l with
  | zero => exact ⟨trivial, h⟩
  | succ m ih =>
    obtain ⟨el, hlist, hlast, hdrop, hcount⟩ := h.list
    have hfull := h.not_full (show el ∈ l.list by simp [hlist])
    have hpush : pushList l.list (n + 1) 0 .subJoin = [el.append (n + 1) 0 .subJoin] := by
      rw [hlist]
      simp [pushList, pushTl, hfull, SubArray.push, SUB_ELEM_CAP, hlast,
        show k ≠ 64 by omega]
    have hnext : Filling (n + 1) (k + 1) (l.step (.push (n + 1) 0 .subJoin)) := by
      refine ⟨⟨el.append (n + 1) 0 .subJoin, hpush, ?_, hdrop, ?_⟩, ?_, rfl⟩
      · exact congrArg (· + 1) hlast
      · exact Nat.mod_lt _ (Nat.two_pow_pos 16)
      · show (l.live ++ [_]).length = k + 1
        rw [List.length_append, h.live]
        rfl
    obtain ⟨hok, hfill⟩ := ih hnext (by omega)
    rw [Nat.add_right_comm, Nat.add_right_comm k] at hfill
    refine ⟨⟨?_, hok⟩, hfill⟩
    show l.top < n + 1
    rw [h.top]
    exact Nat.lt_succ_self n

/-- One subscription stays, 65472 come and go behind it, and 63 more stay: 64 live
slots with the counters at 0 and 65472, and the array is not full. -/
theorem wrapped_not_exact :
    ¬ ∀ es, Run.AllOk step Increasing empty es → ∀ k, ((es.take k).foldl step empty).Exact := by
  intro h
  let first : List Event := [.push 1 0 .subJoin]
  let churns := churn 0 65472
  let rest := pushes 65473 63
  have hfirst : Churned 0 (first.foldl step empty) :=
    ⟨⟨_, _, _, rfl, rfl⟩, rfl, rfl⟩
  obtain ⟨hokc, hch⟩ := hfirst.run (m := 65472) (by decide)
  have hfill : Filling 65473 1 (churns.foldl step (first.foldl step empty)) := by
    obtain ⟨⟨action, seqno, hash, hlist, -⟩, hlive, htop⟩ := hch
    refine ⟨⟨_, hlist, rfl, rfl, ?_⟩, ?_, htop⟩
    · exact (by decide : 0 + 65472 + 1 < 2 ^ 16)
    · rw [hlive]
      rfl
  obtain ⟨hokr, hend⟩ := hfill.run (m := 63) (by decide)
  have hok : Run.AllOk step Increasing empty (first ++ (churns ++ rest)) := by
    refine Run.AllOk.append ⟨?_, trivial⟩ (hokc.append hokr)
    exact Nat.zero_lt_one
  have hexact := h _ hok (first ++ (churns ++ rest)).length
  rw [List.take_length, List.foldl_append, List.foldl_append] at hexact
  obtain ⟨el, hlist, -⟩ := hend.list
  have hmem : el ∈ ((rest.foldl step (churns.foldl step (first.foldl step empty))).list) := by
    rw [hlist]
    exact List.mem_singleton_self el
  have hlen : el.entries.length = SUB_ELEM_CAP := by
    have hent := hexact.entries
    rw [hlist, List.flatMap_singleton] at hent
    rw [hent]
    exact hend.live
  have htrue := (hexact.sound el hmem).full.mpr hlen
  rw [hend.not_full hmem] at htrue
  cases htrue

end SubArrays

end Raims
