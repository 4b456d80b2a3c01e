import Mathlib.Data.List.Basic

/-!
# Lists from which elements are struck off

Elements have a key. For a key the first element of it is struck off; of the elements of one
key as many are left out as the key was named, from the front.
-/

namespace StrikeOff

variable {α κ : Type*} [DecidableEq κ] {key : α → κ} {l : List α} {x : α} {k k' : κ} {n : ℕ}

def hasKey (key : α → κ) (k : κ) (x : α) : Bool := key x = k

theorem hasKey_iff : hasKey key k x = true ↔ key x = k := decide_eq_true_iff

theorem filter_eraseP_self (key : α → κ) (l : List α) (k : κ) :
    (l.eraseP (hasKey key k)).filter (hasKey key k) =
      (l.filter (hasKey key k)).drop 1 := by
  induction l with
  | nil => rfl
  | cons x l ih =>
    by_cases hx : key x = k
    · rw [List.eraseP_cons_of_pos (hasKey_iff.2 hx), List.filter_cons_of_pos (hasKey_iff.2 hx)]
      rfl
    · have hneg : ¬ hasKey key k x = true := by rwa [hasKey_iff]
      rw [List.eraseP_cons_of_neg hneg, List.filter_cons_of_neg hneg,
        List.filter_cons_of_neg hneg, ih]

theorem filter_eraseP_of_ne (key : α → κ) (l : List α) (h : k' ≠ k) :
    (l.eraseP (hasKey key k')).filter (hasKey key k) = l.filter (hasKey key k) := by
  induction l with
  | nil => rfl
  | cons x l ih =>
    by_cases hx : key x = k'
    · have hneg : ¬ hasKey key k x = true := by
        rw [hasKey_iff, hx]
        exact h
      rw [List.eraseP_cons_of_pos (hasKey_iff.2 hx), List.filter_cons_of_neg hneg]
    · rw [List.eraseP_cons_of_neg (by rwa [hasKey_iff]), List.filter_cons, List.filter_cons,
        ih]

/-! ## Elements that are alone -/

/-- The elements whose key no other has. -/
def alone (key : α → κ) (l : List α) : List α :=
  l.filter fun x => l.countP (hasKey key (key x)) = 1

theorem countP_cons_self (key : α → κ) (x : α) (l : List α) :
    (x :: l).countP (hasKey key (key x)) = (l.filter (hasKey key (key x))).length + 1 := by
  rw [List.countP_cons_of_pos (hasKey_iff.2 rfl), List.countP_eq_length_filter]

theorem alone_cons_of_nil (h : l.filter (hasKey key (key x)) = []) :
    alone key (x :: l) = x :: alone key l := by
  have hone : l.filter (fun y => (x :: l).countP (hasKey key (key y)) = 1) = alone key l := by
    refine List.filter_congr fun y hy => ?_
    rw [List.countP_cons_of_neg]
    rw [hasKey_iff]
    intro heq
    exact List.filter_eq_nil_iff.1 h y hy (hasKey_iff.2 heq.symm)
  rw [alone, List.filter_cons_of_pos, hone]
  rw [decide_eq_true_eq, countP_cons_self, h, List.length_nil]

/-- Without the elements of one key, the others are alone where they were alone before. -/
theorem alone_cons_of_ne_nil (h : l.filter (hasKey key (key x)) ≠ []) :
    alone key (x :: l) = alone key (l.filter (!hasKey key (key x) ·)) := by
  have hpos := List.length_pos_of_ne_nil h
  rw [alone, List.filter_cons_of_neg, alone, List.filter_filter]
  · refine List.filter_congr fun y _ => ?_
    by_cases hy : key y = key x
    · rw [hasKey_iff.2 hy, Bool.not_true, Bool.and_false, hy, countP_cons_self]
      exact decide_eq_false (by omega)
    · have hneg : hasKey key (key x) y = false := Bool.eq_false_iff.2 (mt hasKey_iff.1 hy)
      rw [hneg, Bool.not_false, Bool.and_true, List.countP_filter, List.countP_cons_of_neg]
      · congr 2
        refine List.countP_congr fun z _ => ?_
        rw [Bool.and_eq_true, iff_self_and, hasKey_iff, Bool.not_eq_true', ← Bool.not_eq_true,
          hasKey_iff]
        intro hz
        rwa [hz]
      · rw [hasKey_iff]
        exact Ne.symm hy
  · rw [decide_eq_true_eq, countP_cons_self]
    omega

/-! ## By a list of keys -/

/-- For each of the keys the first element of it that is left. -/
def strike (key : α → κ) (l : List α) (ks : List κ) : List α :=
  ks.foldl (fun l k => l.eraseP (hasKey key k)) l

theorem strike_sublist (key : α → κ) (l : List α) (ks : List κ) : (strike key l ks).Sublist l := by
  induction ks generalizing l with
  | nil => exact .refl l
  | cons k ks ih => exact (ih _).trans List.eraseP_sublist

theorem filter_strike (key : α → κ) (l : List α) (ks : List κ) (k : κ) :
    (strike key l ks).filter (hasKey key k) =
      (l.filter (hasKey key k)).drop (ks.countP (· = k)) := by
  induction ks generalizing l with
  | nil => rfl
  | cons k' ks ih =>
    refine (ih _).trans ?_
    by_cases hk : k' = k
    · subst hk
      have hcount : (k' :: ks).countP (· = k') = ks.countP (· = k') + 1 :=
        List.countP_cons_of_pos (decide_eq_true rfl)
      rw [filter_eraseP_self, hcount, List.drop_drop, Nat.add_comm]
    · have hcount : (k' :: ks).countP (· = k) = ks.countP (· = k) :=
        List.countP_cons_of_neg (by rwa [decide_eq_true_eq])
      rw [filter_eraseP_of_ne key l hk, hcount]

/-! ## Pairs -/

/-- Each element strikes off the first one behind it of the key that belongs to its own, in as
many rounds as the list is long. -/
def pairOff (key : α → κ) (rev : κ → κ) : ℕ → List α → List α
  | 0, _ => []
  | _ + 1, [] => []
  | n + 1, x :: l => x :: pairOff key rev n (l.eraseP (hasKey key (rev (key x))))

theorem pairOff_sublist (key : α → κ) (rev : κ → κ) (n : ℕ) (l : List α) :
    (pairOff key rev n l).Sublist l := by
  induction n generalizing l with
  | zero => exact List.nil_sublist l
  | succ n ih =>
    cases l with
    | nil => exact .refl _
    | cons x l => exact ((ih _).trans List.eraseP_sublist).cons_cons x

theorem length_eraseP_le_of_cons (h : (x :: l).length ≤ n + 1) (p : α → Bool) :
    (l.eraseP p).length ≤ n :=
  Nat.le_trans List.length_eraseP_le (Nat.le_of_succ_le_succ h)

/-- Where all elements of a key stand before those of the key that belongs to it, the former
stay and strike off as many of the latter. -/
theorem filter_pairOff {rev : κ → κ} (hrev : ∀ k, rev (rev k) = k) (hk : rev k ≠ k)
    (hn : l.length ≤ n) (hl : l.Pairwise fun x y => key x = rev k → key y ≠ k) :
    (pairOff key rev n l).filter (hasKey key k) = l.filter (hasKey key k) ∧
      (pairOff key rev n l).filter (hasKey key (rev k)) =
        (l.filter (hasKey key (rev k))).drop (l.filter (hasKey key k)).length := by
  induction n generalizing l with
  | zero =>
    obtain rfl := List.length_eq_zero_iff.1 (Nat.le_zero.1 hn)
    exact ⟨rfl, rfl⟩
  | succ n ih =>
    cases l with
    | nil => exact ⟨rfl, rfl⟩
    | cons x l =>
      obtain ⟨hx, hl⟩ := List.pairwise_cons.1 hl
      obtain ⟨hsame, hother⟩ := ih (length_eraseP_le_of_cons hn (hasKey key (rev (key x))))
        (hl.sublist List.eraseP_sublist)
      rw [pairOff]
      by_cases hxk : key x = k
      · have hneg : ¬ hasKey key (rev k) x = true := by
          rw [hasKey_iff, hxk]
          exact hk.symm
        rw [List.filter_cons_of_pos (hasKey_iff.2 hxk), List.filter_cons_of_neg hneg,
          List.filter_cons_of_pos (hasKey_iff.2 hxk), List.filter_cons_of_neg hneg]
        rw [hxk, filter_eraseP_of_ne key l hk] at hsame hother
        rw [filter_eraseP_self, List.drop_drop, Nat.add_comm] at hother
        rw [hxk, hsame, hother, List.length_cons]
        exact ⟨rfl, rfl⟩
      · have hneg : ¬ hasKey key k x = true := by rwa [hasKey_iff]
        rw [List.filter_cons_of_neg hneg, List.filter_cons_of_neg hneg]
        by_cases hxr : key x = rev k
        · -- none of the key is left
          have hnone : l.filter (hasKey key k) = [] :=
            List.filter_eq_nil_iff.2 fun y hy => by
              rw [hasKey_iff]
              exact hx y hy hxr
          have herase : l.eraseP (hasKey key (rev (key x))) = l :=
            List.eraseP_of_forall_not fun y hy => by
              rw [hxr, hrev, hasKey_iff]
              exact hx y hy hxr
          rw [herase] at hsame hother
          rw [List.filter_cons_of_pos (hasKey_iff.2 hxr),
            List.filter_cons_of_pos (hasKey_iff.2 hxr), herase, hsame, hother, hnone]
          exact ⟨rfl, rfl⟩
        · have hne : rev (key x) ≠ k := by
            rintro rfl
            exact hxr (hrev _).symm
          have hne' : rev (key x) ≠ rev k := by
            intro heq
            exact hxk (by rw [← hrev (key x), heq, hrev])
          have hneg' : ¬ hasKey key (rev k) x = true := by rwa [hasKey_iff]
          rw [List.filter_cons_of_neg hneg', List.filter_cons_of_neg hneg', hsame, hother,
            filter_eraseP_of_ne key l hne, filter_eraseP_of_ne key l hne']
          exact ⟨rfl, rfl⟩

/-! ## Those of a kind in front -/

section Front

variable {p : α → Bool}

/-- All elements of a kind stand before the others. -/
def Front (p : α → Bool) (l : List α) : Prop := l.Pairwise fun x y => p y = true → p x = true

theorem Front.filter_append (h : Front p l) : l.filter p ++ l.filter (!p ·) = l := by
  induction l with
  | nil => rfl
  | cons x l ih =>
    obtain ⟨hx, hl⟩ := List.pairwise_cons.1 h
    by_cases hp : p x = true
    · rw [List.filter_cons_of_pos hp, List.filter_cons_of_neg (by rw [hp]; decide),
        List.cons_append, ih hl]
    · have hnone : l.filter p = [] := List.filter_eq_nil_iff.2 fun y hy hpy => hp (hx y hy hpy)
      have hall := ih hl
      rw [hnone, List.nil_append] at hall
      rw [List.filter_cons_of_neg hp, hnone, List.nil_append, List.filter_cons_of_pos, hall]
      rwa [Bool.not_eq_true', ← Bool.not_eq_true]

theorem Front.drop (h : Front p l) : l.drop (l.filter p).length = l.filter (!p ·) := by
  have hdrop := @List.drop_left α (l.filter p) (l.filter (!p ·))
  rwa [h.filter_append] at hdrop

/-- As many from the front as there are of the kind. -/
theorem front_of_take (h : ∀ x ∈ l.take (l.filter p).length, p x = true) : Front p l := by
  have hsplit := List.take_append_drop (l.filter p).length l
  have htake : (l.take (l.filter p).length).filter p = l.take (l.filter p).length :=
    List.filter_eq_self.2 h
  have hlen : (l.take (l.filter p).length).length = (l.filter p).length :=
    List.length_take_of_le (List.length_filter_le p l)
  -- so there is none among the others
  have hnone : (l.drop (l.filter p).length).filter p = [] := by
    have hall := congrArg (fun l => (l.filter p).length) hsplit
    simp only [List.filter_append, List.length_append, htake, hlen] at hall
    exact List.length_eq_zero_iff.1 (Nat.add_eq_left.1 hall)
  rw [Front, ← hsplit, List.pairwise_append]
  refine ⟨?_, ?_, ?_⟩
  · exact List.pairwise_of_forall_mem_list fun x hx _ _ _ => h x hx
  · refine List.pairwise_of_forall_mem_list fun x _ y hy hp => ?_
    exact absurd hp (List.filter_eq_nil_iff.1 hnone y hy)
  · exact fun x hx _ _ _ => h x hx

end Front

end StrikeOff
