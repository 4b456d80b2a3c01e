import Mathlib.Data.List.Sort
import Mathlib.Data.Nat.Notation
import Mathlib.Logic.Function.Basic

/-!
# Priority queues whose keys lie outside

A queue of elements in the order of a key that the elements hold and others may write.
It is in order only as long as the keys of its members stay: what is promised of the
operations is promised of queues in order.
-/

/-- The operations, each with the keys at the time of the call. The head of a queue is
its least element. -/
structure PrioQueue (α : Type*) where
  push : (α → ℕ) → List α → α → List α
  pop : (α → ℕ) → List α → List α
  remove : (α → ℕ) → List α → α → List α

namespace PrioQueue

variable {α : Type*} {o : PrioQueue α} {Heap : (α → ℕ) → List α → Prop}
  {key key' : α → ℕ} {mark : α → Bool} {q q' : List α} {x y : α} {now : ℕ}

/-- The members that are due. -/
def due (key : α → ℕ) (now : ℕ) (q : List α) : List α := q.filter fun x => key x ≤ now

@[simp]
theorem mem_due : x ∈ due key now q ↔ x ∈ q ∧ key x ≤ now := by
  rw [due, List.mem_filter, decide_eq_true_eq]

theorem length_due_le : (due key now q).length ≤ q.length := List.length_filter_le _ q

variable [DecidableEq α]

/-- A correct heap: `Heap key q` says that the queue is in the order of the keys. -/
structure Lawful (o : PrioQueue α) (Heap : (α → ℕ) → List α → Prop) : Prop where
  nil : ∀ key, Heap key []
  congr : ∀ {key key' q}, Heap key q → (∀ x ∈ q, key' x = key x) → Heap key' q
  top : ∀ {key x q}, Heap key (x :: q) → ∀ y ∈ q, key x ≤ key y
  push : ∀ {key q x}, Heap key q → x ∉ q → Heap key (o.push key q x)
  push_perm : ∀ {key q x}, Heap key q → x ∉ q → (o.push key q x).Perm (x :: q)
  pop : ∀ {key x q}, Heap key (x :: q) → Heap key (o.pop key (x :: q))
  pop_perm : ∀ {key x q}, Heap key (x :: q) → (o.pop key (x :: q)).Perm q
  remove : ∀ {key q x}, Heap key q → x ∈ q → Heap key (o.remove key q x)
  remove_perm : ∀ {key q x}, Heap key q → x ∈ q → (o.remove key q x).Perm (q.erase x)

/-- The queue is in order and has each member once. -/
structure Kept (Heap : (α → ℕ) → List α → Prop) (key : α → ℕ) (q : List α) : Prop where
  nodup : q.Nodup
  heap : Heap key q

theorem Lawful.kept_nil (ho : o.Lawful Heap) : Kept Heap key [] :=
  ⟨List.nodup_nil, ho.nil key⟩

namespace Kept

/-- A queue whose members are the marked elements has each of them once. -/
theorem count (h : Kept Heap key q) (hmark : ∀ x, x ∈ q ↔ mark x = true) (x : α) :
    q.count x = if mark x then 1 else 0 := by
  by_cases hx : x ∈ q
  · rw [List.count_eq_one_of_mem h.nodup hx, if_pos ((hmark x).1 hx)]
  · rw [List.count_eq_zero_of_not_mem hx, if_neg fun hm => hx ((hmark x).2 hm)]

/-- The keys of the elements that are not in the queue may be written. -/
theorem congr (ho : o.Lawful Heap) (h : Kept Heap key q) (hkey : ∀ x ∈ q, key' x = key x) :
    Kept Heap key' q :=
  ⟨h.nodup, ho.congr h.heap hkey⟩

theorem push (ho : o.Lawful Heap) (h : Kept Heap key q) (hx : x ∉ q) :
    Kept Heap key (o.push key q x) :=
  ⟨(ho.push_perm h.heap hx).nodup_iff.2 (List.nodup_cons.2 ⟨hx, h.nodup⟩), ho.push h.heap hx⟩

theorem mem_push (ho : o.Lawful Heap) (h : Kept Heap key q) (hx : x ∉ q) :
    y ∈ o.push key q x ↔ y = x ∨ y ∈ q := by
  rw [(ho.push_perm h.heap hx).mem_iff, List.mem_cons]

theorem pop (ho : o.Lawful Heap) (h : Kept Heap key (x :: q)) :
    Kept Heap key (o.pop key (x :: q)) :=
  ⟨(ho.pop_perm h.heap).nodup_iff.2 h.nodup.of_cons, ho.pop h.heap⟩

theorem mem_pop (ho : o.Lawful Heap) (h : Kept Heap key (x :: q)) :
    y ∈ o.pop key (x :: q) ↔ y ∈ x :: q ∧ y ≠ x := by
  rw [(ho.pop_perm h.heap).mem_iff, List.mem_cons]
  constructor
  · intro hy
    exact ⟨Or.inr hy, fun e => (List.nodup_cons.1 h.nodup).1 (e ▸ hy)⟩
  · rintro ⟨hy, hne⟩
    exact hy.resolve_left hne

theorem remove (ho : o.Lawful Heap) (h : Kept Heap key q) (hx : x ∈ q) :
    Kept Heap key (o.remove key q x) :=
  ⟨(ho.remove_perm h.heap hx).nodup_iff.2 (h.nodup.erase x), ho.remove h.heap hx⟩

theorem mem_remove (ho : o.Lawful Heap) (h : Kept Heap key q) (hx : x ∈ q) :
    y ∈ o.remove key q x ↔ y ∈ q ∧ y ≠ x := by
  rw [(ho.remove_perm h.heap hx).mem_iff, h.nodup.mem_erase_iff, and_comm]

/-- Nothing is due when the head is not. -/
theorem lt_of_head (ho : o.Lawful Heap) (h : Kept Heap key (x :: q)) (hx : now < key x) :
    ∀ y ∈ x :: q, now < key y := by
  intro y hy
  rcases List.mem_cons.1 hy with rfl | hy
  · exact hx
  · exact Nat.lt_of_lt_of_le hx (ho.top h.heap y hy)

end Kept

/-- A round that ends one that is due and makes none due leaves fewer. -/
theorem length_due_lt (hq' : q'.Nodup) (hx : x ∈ due key now q)
    (hdue : ∀ y ∈ due key' now q', y ∈ due key now q ∧ y ≠ x) :
    (due key' now q').length < (due key now q).length := by
  have hsub : (due key' now q') ⊆ (due key now q).erase x := by
    intro y hy
    exact (List.mem_erase_of_ne (hdue y hy).2).2 (hdue y hy).1
  have hle := (List.subperm_of_subset (List.Nodup.filter _ hq') hsub).length_le
  rw [List.length_erase_of_mem hx] at hle
  have hpos := List.length_pos_of_mem hx
  exact Nat.lt_of_le_of_lt hle (Nat.sub_lt hpos Nat.one_pos)

/-- The queue that is kept sorted. -/
def sorted : PrioQueue α where
  push key q x := q.orderedInsert (fun y z => key y ≤ key z) x
  pop _ q := q.tail
  remove _ q x := q.erase x

theorem sorted_push_perm : (sorted.push key q x).Perm (x :: q) := List.perm_orderedInsert _ _ _

theorem sorted_push_cons (y : α) : sorted.push key (y :: q) x =
    if key x ≤ key y then x :: y :: q else y :: sorted.push key q x :=
  List.orderedInsert_cons (fun y z => key y ≤ key z) x y q

theorem sorted_push_pairwise (h : q.Pairwise fun y z => key y ≤ key z) :
    (sorted.push key q x).Pairwise fun y z => key y ≤ key z := by
  induction q with
  | nil => exact List.pairwise_singleton _ _
  | cons y q ih =>
    obtain ⟨hy, hq⟩ := List.pairwise_cons.1 h
    rw [sorted_push_cons]
    split
    · next hle =>
      refine List.pairwise_cons.2 ⟨fun z hz => ?_, h⟩
      rcases List.mem_cons.1 hz with rfl | hz
      · exact hle
      · exact Nat.le_trans hle (hy z hz)
    · next hle =>
      refine List.pairwise_cons.2 ⟨fun z hz => ?_, ih hq⟩
      rcases List.mem_cons.1 (sorted_push_perm.mem_iff.1 hz) with rfl | hz
      · exact Nat.le_of_lt (Nat.lt_of_not_le hle)
      · exact hy z hz

/-- A sorted queue is a correct heap. -/
theorem lawful_sorted :
    (sorted : PrioQueue α).Lawful fun key q => q.Pairwise fun y z => key y ≤ key z where
  nil _ := List.Pairwise.nil
  congr h hkey := h.imp_of_mem fun hy hz hle => by rwa [hkey _ hy, hkey _ hz]
  top h := (List.pairwise_cons.1 h).1
  push h _ := sorted_push_pairwise h
  push_perm _ _ := sorted_push_perm
  pop h := (List.pairwise_cons.1 h).2
  pop_perm _ := List.Perm.refl _
  remove h _ := h.sublist List.erase_sublist
  remove_perm _ _ := List.Perm.refl _

end PrioQueue
