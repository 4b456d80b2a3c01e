import Mathlib.Data.List.Nodup
import Mathlib.Logic.Function.Basic

/-!
# Singly linked lists with a tail pointer

The elements are in memory, and each has a `next` field. A list has pointers to its first
and its last element. An element is appended after the last; elements are unlinked by a
loop that goes through the list and remembers the last element that it kept.
-/

/-- The pointers to the first and the last element. -/
structure SLinkList (α : Type*) where
  hd : Option α
  tl : Option α

namespace SLinkList

variable {α σ : Type*} {next next' : α → Option α} {p q : Option α} {a b : α} {l l' : List α}

/-- `l` is what is gone through from `p` until `q`. -/
def Seg (next : α → Option α) : Option α → List α → Option α → Prop
  | p, [], q => p = q
  | p, a :: l, q => p = some a ∧ Seg next (next a) l q

/-- The list has the elements `l`, and its last one is at the tail. -/
structure Holds (next : α → Option α) (ls : SLinkList α) (l : List α) : Prop where
  seg : Seg next ls.hd l none
  tail : ls.tl = l.getLast?
  nodup : l.Nodup

def empty : SLinkList α := ⟨none, none⟩

theorem seg_append : Seg next p (l ++ l') q ↔ ∃ r, Seg next p l r ∧ Seg next r l' q := by
  induction l generalizing p with
  | nil =>
    constructor
    · intro h
      exact ⟨p, rfl, h⟩
    · rintro ⟨r, rfl, h⟩
      exact h
  | cons a l ih =>
    rw [List.cons_append, Seg, ih]
    constructor
    · rintro ⟨hp, r, hl, hl'⟩
      exact ⟨r, ⟨hp, hl⟩, hl'⟩
    · rintro ⟨r, ⟨hp, hl⟩, hl'⟩
      exact ⟨hp, r, hl, hl'⟩

theorem seg_concat : Seg next p (l ++ [a]) q ↔ Seg next p l (some a) ∧ next a = q := by
  rw [seg_append]
  constructor
  · rintro ⟨r, hl, rfl, hq⟩
    exact ⟨hl, hq⟩
  · rintro ⟨hl, hq⟩
    exact ⟨some a, hl, rfl, hq⟩

/-- The fields of other elements do not matter. -/
theorem Seg.congr (h : Seg next p l q) (hnext : ∀ a ∈ l, next' a = next a) : Seg next' p l q := by
  induction l generalizing p with
  | nil => exact h
  | cons a l ih =>
    refine ⟨h.1, ?_⟩
    rw [hnext a List.mem_cons_self]
    exact ih h.2 fun b hb => hnext b (List.mem_cons_of_mem a hb)

theorem Seg.unique (h : Seg next p l none) (h' : Seg next p l' none) : l = l' := by
  induction l generalizing p l' with
  | nil =>
    cases l' with
    | nil => rfl
    | cons a l' => exact absurd (h.symm.trans h'.1) (Option.some_ne_none a).symm
  | cons a l ih =>
    cases l' with
    | nil => exact absurd (h'.symm.trans h.1) (Option.some_ne_none a).symm
    | cons b l' =>
      obtain rfl := Option.some.inj (h.1.symm.trans h'.1)
      rw [ih h.2 h'.2]

theorem holds_empty : Holds next empty [] := ⟨rfl, rfl, List.nodup_nil⟩

/-- `for ( a = hd; a != NULL; a = a->next )` -/
def forEach (next : α → Option α) (body : σ → α → σ) : ℕ → Option α → σ → σ
  | 0, _, s => s
  | _ + 1, none, s => s
  | fuel + 1, some a, s => forEach next body fuel (next a) (body s a)

theorem forEach_eq_foldl {body : σ → α → σ} {fuel : ℕ} {s : σ} (h : Seg next p l none)
    (hfuel : l.length ≤ fuel) : forEach next body fuel p s = l.foldl body s := by
  induction l generalizing p fuel s with
  | nil =>
    obtain rfl : p = none := h
    cases fuel with
    | zero => rfl
    | succ fuel => rfl
  | cons a l ih =>
    obtain ⟨rfl, hrest⟩ := h
    cases fuel with
    | zero => exact absurd hfuel (Nat.not_succ_le_zero _)
    | succ fuel => exact ih hrest (Nat.le_of_succ_le_succ hfuel)

/-! ## Appending -/

variable [DecidableEq α]

/-- The element `a` comes after the last. -/
def pushTl (m : (α → Option α) × SLinkList α) (a : α) : (α → Option α) × SLinkList α :=
  match m.2.tl with
  | none => (Function.update m.1 a none, ⟨some a, some a⟩)
  | some t => (Function.update (Function.update m.1 t (some a)) a none, ⟨m.2.hd, some a⟩)

/-- Only the last element and the new one are written. -/
theorem pushTl_next {m : (α → Option α) × SLinkList α} (hm : Holds m.1 m.2 l) (hb : b ∉ l)
    (hab : b ≠ a) : (pushTl m a).1 b = m.1 b := by
  rw [pushTl]
  cases htl : m.2.tl with
  | none => exact Function.update_of_ne hab _ _
  | some t =>
    have ht : t ∈ l := List.mem_of_getLast? (hm.tail.symm.trans htl)
    have hbt : b ≠ t := fun heq => hb (heq ▸ ht)
    exact (Function.update_of_ne hab _ _).trans (Function.update_of_ne hbt _ _)

theorem Holds.pushTl {m : (α → Option α) × SLinkList α} (hm : Holds m.1 m.2 l) (ha : a ∉ l) :
    Holds (pushTl m a).1 (pushTl m a).2 (l ++ [a]) := by
  have hnodup : (l ++ [a]).Nodup := by
    rw [List.nodup_append]
    refine ⟨hm.nodup, List.nodup_singleton a, fun b hb c hc heq => ?_⟩
    obtain rfl := List.mem_singleton.1 hc
    exact ha (heq ▸ hb)
  refine ⟨?_, ?_, hnodup⟩
  · rw [seg_concat]
    rcases List.eq_nil_or_concat l with rfl | ⟨l, t, rfl⟩
    · have htl : m.2.tl = none := hm.tail
      rw [SLinkList.pushTl, htl]
      exact ⟨rfl, Function.update_self a none m.1⟩
    · rw [List.concat_eq_append] at hm ha hnodup ⊢
      have htl : m.2.tl = some t := hm.tail.trans List.getLast?_concat
      obtain ⟨hseg, -⟩ := seg_concat.1 hm.seg
      have hta : t ≠ a := fun heq => ha (heq ▸ List.mem_append_right l (List.mem_singleton_self t))
      rw [SLinkList.pushTl, htl]
      refine ⟨seg_concat.2 ⟨hseg.congr fun b hb => ?_, ?_⟩, Function.update_self _ _ _⟩
      · have hbt : b ≠ t := by
          rintro rfl
          exact (List.nodup_append.1 hm.nodup).2.2 b hb b (List.mem_singleton_self b) rfl
        have hba : b ≠ a := fun heq => ha (heq ▸ List.mem_append_left [t] hb)
        exact (Function.update_of_ne hba _ _).trans (Function.update_of_ne hbt _ _)
      · exact (Function.update_of_ne hta _ _).trans (Function.update_self _ _ _)
  · rw [List.getLast?_concat, SLinkList.pushTl]
    cases m.2.tl with
    | none => rfl
    | some t => rfl

/-- A list that is linked again in another order. -/
theorem holds_foldl_pushTl (hnodup : l.Nodup) :
    Holds (l.foldl pushTl (next, empty)).1 (l.foldl pushTl (next, empty)).2 l := by
  have hrun : ∀ (l' l : List α) (m : (α → Option α) × SLinkList α), Holds m.1 m.2 l →
      (l ++ l').Nodup → Holds (l'.foldl pushTl m).1 (l'.foldl pushTl m).2 (l ++ l') := by
    intro l'
    induction l' with
    | nil =>
      intro l m hm _
      rw [List.append_nil]
      exact hm
    | cons a l' ih =>
      intro l m hm hnodup
      rw [List.append_cons] at hnodup ⊢
      have ha : a ∉ l := by
        have hl := (List.nodup_append.1 hnodup).1
        exact fun hmem => (List.nodup_append.1 hl).2.2 a hmem a (List.mem_singleton_self a) rfl
      exact ih (l ++ [a]) _ (hm.pushTl ha) hnodup
  exact hrun l [] (next, empty) holds_empty hnodup

/-! ## Unlinking -/

/-- The locals of the loop: the last element that was kept, the list of those that were
unlinked, and what is computed of them. -/
structure Unlinking (α σ : Type*) where
  next : α → Option α
  hd : Option α
  last : Option α
  tmp : SLinkList α
  acc : σ

/-- An element is taken out, put in the other list and counted. -/
def Unlinking.take (s : Unlinking α σ) (act : σ → α → σ) (u : α) : Unlinking α σ :=
  let next := s.next u
  let s :=
    match s.last with
    | none => { s with hd := next }
    | some l => { s with next := Function.update s.next l next }
  let r := pushTl (s.next, s.tmp) u
  { s with next := r.1, tmp := r.2, acc := act s.acc u }

/-- The loop that unlinks the elements that are hit, until there is enough. -/
def unlinkLoop (hit : α → Bool) (act : σ → α → σ) (stop : σ → Bool) :
    ℕ → Option α → Unlinking α σ → Unlinking α σ
  | 0, _, s => s
  | _ + 1, none, s => s
  | fuel + 1, some u, s =>
    let next := s.next u
    if hit u then
      let s := s.take act u
      if stop s.acc then s else unlinkLoop hit act stop fuel next s
    else unlinkLoop hit act stop fuel next { s with last := some u }

/-- What stays of a list, what goes, and what is computed. -/
def unlinked (hit : α → Bool) (act : σ → α → σ) (stop : σ → Bool) :
    σ → List α → List α × List α × σ
  | acc, [] => ([], [], acc)
  | acc, a :: l =>
    if hit a then
      if stop (act acc a) then (l, [a], act acc a)
      else
        let r := unlinked hit act stop (act acc a) l
        (r.1, a :: r.2.1, r.2.2)
    else
      let r := unlinked hit act stop acc l
      (a :: r.1, r.2)

/-- In the middle of the loop: `kept` stayed, `removed` went, and `l` is left. -/
structure Unlinking.Ok (s : Unlinking α σ) (kept l removed : List α) (p : Option α) : Prop where
  front : Seg s.next s.hd kept p
  last : s.last = kept.getLast?
  rest : Seg s.next p l none
  tmp : Holds s.next s.tmp removed
  nodup : (kept ++ l).Nodup
  apart : ∀ a ∈ removed, a ∉ kept ++ l

omit [DecidableEq α] in
theorem Unlinking.Ok.keep {s : Unlinking α σ} {kept removed : List α}
    (h : s.Ok kept (a :: l) removed (some a)) :
    Unlinking.Ok { s with last := some a } (kept ++ [a]) l removed (s.next a) where
  front := seg_concat.2 ⟨h.front, rfl⟩
  last := List.getLast?_concat.symm
  rest := h.rest.2
  tmp := h.tmp
  nodup := by
    rw [← List.append_cons]
    exact h.nodup
  apart := by
    intro b hb
    rw [← List.append_cons]
    exact h.apart b hb

/-- The element before is linked with the one behind. -/
theorem Unlinking.Ok.unlink {s : Unlinking α σ} {kept removed : List α}
    (h : s.Ok kept (a :: l) removed (some a)) (s' : Unlinking α σ)
    (hs' : s' =
      match s.last with
      | none => { s with hd := s.next a }
      | some l => { s with next := Function.update s.next l (s.next a) }) :
    s'.Ok kept l removed (s.next a) ∧ s'.acc = s.acc := by
  have hrest : Seg s.next (s.next a) l none := h.rest.2
  have hsub : (kept ++ l).Sublist (kept ++ a :: l) :=
    List.Sublist.append_left (List.sublist_cons_self a l) kept
  have hnodup : (kept ++ l).Nodup := h.nodup.sublist hsub
  have hapart : ∀ b ∈ removed, b ∉ kept ++ l := fun b hb hmem => h.apart b hb (hsub.subset hmem)
  subst hs'
  rcases List.eq_nil_or_concat kept with rfl | ⟨kept, t, rfl⟩
  · have hlast : s.last = none := h.last
    rw [hlast]
    exact ⟨⟨rfl, rfl, hrest, h.tmp, hnodup, hapart⟩, rfl⟩
  · rw [List.concat_eq_append] at h hnodup hapart ⊢
    have hlast : s.last = some t := h.last.trans List.getLast?_concat
    rw [hlast]
    have htkept : t ∉ kept := fun hmem =>
      (List.nodup_append.1 (List.nodup_append.1 h.nodup).1).2.2 t hmem t
        (List.mem_singleton_self t) rfl
    have htl : t ∉ l := fun hmem =>
      (List.nodup_append.1 hnodup).2.2 t (List.mem_append_right kept (List.mem_singleton_self t))
        t hmem rfl
    have htremoved : t ∉ removed := fun hmem => hapart t hmem
      (List.mem_append_left l (List.mem_append_right kept (List.mem_singleton_self t)))
    have hother : ∀ b, b ≠ t → Function.update s.next t (s.next a) b = s.next b :=
      fun b hb => Function.update_of_ne hb _ _
    obtain ⟨hfront, -⟩ := seg_concat.1 h.front
    refine ⟨⟨seg_concat.2 ⟨hfront.congr fun b hb => hother b ?_, Function.update_self _ _ _⟩,
      List.getLast?_concat.symm, hrest.congr fun b hb => hother b ?_,
      ⟨h.tmp.seg.congr fun b hb => hother b ?_, h.tmp.tail, h.tmp.nodup⟩, hnodup, hapart⟩, rfl⟩
    · exact fun heq => htkept (heq ▸ hb)
    · exact fun heq => htl (heq ▸ hb)
    · exact fun heq => htremoved (heq ▸ hb)

theorem Unlinking.Ok.take {s : Unlinking α σ} {kept removed : List α}
    (h : s.Ok kept (a :: l) removed (some a)) (act : σ → α → σ) :
    (s.take act a).Ok kept l (removed ++ [a]) (s.next a) ∧ (s.take act a).acc = act s.acc a := by
  obtain ⟨hok, hacc⟩ := h.unlink _ rfl
  generalize hs' : (match s.last with
      | none => { s with hd := s.next a }
      | some l => { s with next := Function.update s.next l (s.next a) } : Unlinking α σ) = s'
    at hok hacc
  have htake : s.take act a = { s' with
      next := (pushTl (s'.next, s'.tmp) a).1
      tmp := (pushTl (s'.next, s'.tmp) a).2
      acc := act s'.acc a } := by
    rw [Unlinking.take, ← hs']
  have hmem : a ∈ kept ++ a :: l := List.mem_append_right kept List.mem_cons_self
  have haremoved : a ∉ removed := fun hb => h.apart a hb hmem
  have hne : ∀ b ∈ kept ++ l, b ≠ a := by
    rintro b hb rfl
    exact (List.nodup_middle.1 h.nodup).notMem hb
  have hsame : ∀ b ∈ kept ++ l, (pushTl (s'.next, s'.tmp) a).1 b = s'.next b := by
    intro b hb
    exact pushTl_next (m := (s'.next, s'.tmp)) hok.tmp (fun hr => hok.apart b hr hb) (hne b hb)
  rw [htake, ← hacc]
  refine ⟨⟨?_, hok.last, ?_, Holds.pushTl (m := (s'.next, s'.tmp)) hok.tmp haremoved, hok.nodup,
    ?_⟩, rfl⟩
  · exact hok.front.congr fun b hb => hsame b (List.mem_append_left l hb)
  · exact hok.rest.congr fun b hb => hsame b (List.mem_append_right kept hb)
  · intro b hb hmem'
    rcases List.mem_append.1 hb with hb | hb
    · exact hok.apart b hb hmem'
    · exact hne b hmem' (List.mem_singleton.1 hb)

/-- The loop leaves a list of what stays, and has what goes in the other list. -/
theorem unlinkLoop_spec {hit : α → Bool} {act : σ → α → σ} {stop : σ → Bool} {fuel : ℕ}
    {s : Unlinking α σ} {kept removed : List α} (h : s.Ok kept l removed p)
    (hfuel : l.length ≤ fuel) :
    let r := unlinkLoop hit act stop fuel p s
    let u := unlinked hit act stop s.acc l
    Seg r.next r.hd (kept ++ u.1) none ∧ (kept ++ u.1).Nodup ∧
      Holds r.next r.tmp (removed ++ u.2.1) ∧ r.acc = u.2.2 := by
  induction fuel generalizing p s kept removed l with
  | zero =>
    obtain rfl := List.length_eq_zero_iff.1 (Nat.le_zero.1 hfuel)
    obtain rfl : p = none := h.rest
    refine ⟨seg_append.2 ⟨none, h.front, rfl⟩, h.nodup, ?_, rfl⟩
    rw [unlinked, List.append_nil]
    exact h.tmp
  | succ fuel ih =>
    cases l with
    | nil =>
      obtain rfl : p = none := h.rest
      refine ⟨seg_append.2 ⟨none, h.front, rfl⟩, h.nodup, ?_, rfl⟩
      rw [unlinked, List.append_nil]
      exact h.tmp
    | cons a l =>
      obtain rfl : p = some a := h.rest.1
      have hlen : l.length ≤ fuel := Nat.le_of_succ_le_succ hfuel
      rw [unlinkLoop, unlinked]
      dsimp only
      split
      · obtain ⟨hok, hacc⟩ := h.take act
        rw [hacc]
        split
        · -- enough: the rest of the list stays
          exact ⟨seg_append.2 ⟨_, hok.front, hok.rest⟩, hok.nodup, hok.tmp, hacc⟩
        · have hrest := ih hok hlen
          rw [hacc] at hrest
          dsimp only at hrest ⊢
          rw [List.append_assoc] at hrest
          exact hrest
      · have hrest := ih h.keep hlen
        dsimp only at hrest ⊢
        rw [← List.append_cons] at hrest
        exact hrest

/-- The loop from the first element on. -/
theorem unlinkLoop_holds (hit : α → Bool) (act : σ → α → σ) (stop : σ → Bool) {fuel : ℕ}
    {ls : SLinkList α} (acc : σ) (h : Holds next ls l) (hfuel : l.length ≤ fuel) :
    let r := unlinkLoop hit act stop fuel ls.hd ⟨next, ls.hd, none, empty, acc⟩
    let u := unlinked hit act stop acc l
    Seg r.next r.hd u.1 none ∧ u.1.Nodup ∧ Holds r.next r.tmp u.2.1 ∧ r.acc = u.2.2 := by
  have hok : (⟨next, ls.hd, none, empty, acc⟩ : Unlinking α σ).Ok [] l [] ls.hd :=
    ⟨rfl, rfl, h.seg, holds_empty, h.nodup, fun a ha => absurd ha List.not_mem_nil⟩
  exact unlinkLoop_spec hok hfuel

/-! ## What goes -/

section Unlinked

variable {hit : α → Bool} {act : σ → α → σ} {acc : σ}

omit [DecidableEq α] in
theorem filter_not_of_hit (h : hit a = true) :
    ((a :: l).filter fun a => !hit a) = l.filter fun a => !hit a := by
  refine List.filter_cons_of_neg ?_
  rw [h]
  exact Bool.false_ne_true

omit [DecidableEq α] in
theorem filter_not_of_not_hit (h : ¬ hit a = true) :
    ((a :: l).filter fun a => !hit a) = a :: l.filter fun a => !hit a := by
  refine List.filter_cons_of_pos ?_
  rw [Bool.eq_false_iff.2 h]
  rfl

omit [DecidableEq α] in
/-- A loop that does not stop unlinks all that are hit. -/
theorem unlinked_all : unlinked hit act (fun _ => false) acc l =
    (l.filter fun a => !hit a, l.filter hit, (l.filter hit).foldl act acc) := by
  induction l generalizing acc with
  | nil => rfl
  | cons a l ih =>
    rw [unlinked]
    split
    · next hhit =>
        rw [if_neg Bool.false_ne_true, ih, List.filter_cons_of_pos hhit, filter_not_of_hit hhit]
        rfl
    · next hhit => rw [ih, List.filter_cons_of_neg hhit, filter_not_of_not_hit hhit]

omit [DecidableEq α] in
/-- A loop that counts down and stops at 0 unlinks all that are hit, if there are as many. -/
theorem unlinked_count {n : ℕ} (h : l.countP hit = n) (hn : n ≠ 0) :
    unlinked hit (fun n _ => n - 1) (fun n => decide (n = 0)) n l =
      (l.filter fun a => !hit a, l.filter hit, 0) := by
  induction l generalizing n with
  | nil => exact absurd h.symm hn
  | cons a l ih =>
    rw [unlinked]
    split
    · next hhit =>
        rw [List.countP_cons_of_pos hhit] at h
        have hpred : n - 1 = l.countP hit := by rw [← h, Nat.add_sub_cancel]
        rw [List.filter_cons_of_pos hhit, filter_not_of_hit hhit, hpred]
        split
        · next hzero =>
            -- none of the rest is hit
            have hnone := List.countP_eq_zero.1 (of_decide_eq_true hzero)
            have hrest : l.filter hit = [] := List.filter_eq_nil_iff.2 hnone
            have hall : (l.filter fun a => !hit a) = l := by
              refine List.filter_eq_self.2 fun b hb => ?_
              rw [Bool.eq_false_iff.2 (hnone b hb)]
              rfl
            rw [hrest, hall, of_decide_eq_true hzero]
        · next hzero =>
            have hne : l.countP hit ≠ 0 := fun h0 => hzero (decide_eq_true h0)
            rw [ih rfl hne]
    · next hhit =>
        rw [List.countP_cons_of_neg hhit] at h
        rw [ih h hn, List.filter_cons_of_neg hhit, filter_not_of_not_hit hhit]

end Unlinked

end SLinkList
