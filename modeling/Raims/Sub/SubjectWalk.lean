import Raims.Lib.Cursor
import Raims.Lib.Generations
import Raims.Pub.PubTab
import Raims.Sub.SeqnoGenerations

/-!
# Walking the subjects (`first` and `next` of `PubTab` and `SeqnoTab`)

One cursor goes through the generations of a table, the newest first. An entry that
moved to a newer generation has stamp 0, and is passed over in the older ones; so is an
entry that was never stamped.
-/

namespace Raims

/-! ## The cursors -/

/-- `RouteLoc` in one of the tables. A table is at `entries[loc]?`, none when it ended. -/
structure GenLoc where
  loc : ℕ
  which : ℕ
deriving DecidableEq

namespace PubTab

variable (t : PubTab)

/-- An entry of the older generation that is shown. -/
def shows (e : Sigma fun _ : RouteKey => Pub) : Bool := !decide (e.2.stamp = 0)

/-- What the cursor is at. -/
def entryAt (c : GenLoc) : Option (Sigma fun _ : RouteKey => Pub) :=
  if c.which = 0 then t.pub.entries[c.loc]? else t.pubOld.entries[c.loc]?

/-- The loop of `next`: the entries of `pub_old` with stamp 0 are passed over. -/
def skipOld (loc : ℕ) : GenLoc :=
  ⟨Cursor.seek shows t.pubOld.entries t.pubOld.entries.length loc, 1⟩

/-- `PubTab::next`; `is_old` is `which`. -/
def next (c : GenLoc) : GenLoc :=
  if c.which = 0 then
    if t.pub.entries[c.loc + 1]?.isSome then ⟨c.loc + 1, 0⟩ else t.skipOld 0
  else t.skipOld (c.loc + 1)

/-- `PubTab::first` -/
def first : GenLoc :=
  if t.pub.entries[0]?.isSome then ⟨0, 0⟩
  else
    match t.pubOld.entries[0]? with
    | some e => if e.2.stamp = 0 then t.next ⟨0, 1⟩ else ⟨0, 1⟩
    | none => ⟨0, 1⟩

/-- `for ( p = first(); p != NULL; p = next() )` -/
def walk : Option (List (Sigma fun _ : RouteKey => Pub)) :=
  Cursor.walk t.entryAt t.next (t.pub.entries.length + t.pubOld.entries.length + 1) t.first

end PubTab

namespace SeqnoTab

variable (t : SeqnoTab)

/-- An entry of the older generations that is shown. -/
def shows (e : Sigma fun _ : RouteKey => SubSeqno) : Bool := !decide (e.2.lastStamp = 0)

/-- What the cursor is at. -/
def entryAt (c : GenLoc) : Option (Sigma fun _ : RouteKey => SubSeqno) :=
  if c.which = 0 then t.tab.entries[c.loc]?
  else if c.which = 1 then t.tabOld.entries[c.loc]?
  else t.tabOld2.entries[c.loc]?

/-- The loops that pass over the entries with stamp 0. -/
def skip (tab : RouteVec SubSeqno) (loc : ℕ) : ℕ :=
  Cursor.seek shows tab.entries tab.entries.length loc

/-- The part of `next` when `which` is 2. -/
def next2 (loc : ℕ) : GenLoc := ⟨skip t.tabOld2 (loc + 1), 2⟩

/-- The part of `next` when `which` is 1. -/
def next1 (loc : ℕ) : GenLoc :=
  let loc := skip t.tabOld (loc + 1)
  if t.tabOld.entries[loc]?.isSome then ⟨loc, 1⟩
  else if t.tabOld2.entries[0]?.any shows then ⟨0, 2⟩
  else t.next2 0

/-- `SeqnoTab::next` -/
def next (c : GenLoc) : GenLoc :=
  if c.which = 0 then
    if t.tab.entries[c.loc + 1]?.isSome then ⟨c.loc + 1, 0⟩
    else if t.tabOld.entries[0]?.any shows then ⟨0, 1⟩
    else t.next1 0
  else if c.which = 1 then t.next1 c.loc
  else t.next2 c.loc

/-- `SeqnoTab::first` -/
def first : GenLoc :=
  if t.tab.entries[0]?.isSome then ⟨0, 0⟩
  else if t.tabOld.entries[skip t.tabOld 0]?.isSome then ⟨skip t.tabOld 0, 1⟩
  else ⟨skip t.tabOld2 0, 2⟩

/-- `for ( p = first(); p != NULL; p = next() )` -/
def walk : Option (List (Sigma fun _ : RouteKey => SubSeqno)) :=
  Cursor.walk t.entryAt t.next
    (t.tab.entries.length + t.tabOld.entries.length + t.tabOld2.entries.length + 1) t.first

end SeqnoTab

/-! ## What the loops go through -/

namespace PubTab

variable (t : PubTab)

/-- The cursor is at an entry of the newer generation, or at one of the older that is
shown, or the table ended. -/
def At (c : GenLoc) : Prop :=
  (c.which = 0 → t.pub.entries[c.loc]? ≠ none) ∧
    (c.which ≠ 0 → ∀ e, t.pubOld.entries[c.loc]? = some e → shows e = true)

/-- What is left from the cursor on. -/
def left (c : GenLoc) : List (Sigma fun _ : RouteKey => Pub) :=
  if c.which = 0 then t.pub.entries.drop c.loc ++ t.pubOld.entries.filter shows
  else (t.pubOld.entries.drop c.loc).filter shows

theorem at_skipOld (loc : ℕ) :
    t.At (t.skipOld loc) ∧ t.left (t.skipOld loc) = (t.pubOld.entries.drop loc).filter shows := by
  obtain ⟨hfilter, hshown⟩ := Cursor.filter_drop_seek (p := shows) (l := t.pubOld.entries)
    (i := loc) (Nat.le_add_left _ _)
  exact ⟨⟨fun h => absurd h Nat.one_ne_zero, fun _ => hshown⟩, hfilter⟩

theorem at_head {c : GenLoc} (h : t.At c) : t.entryAt c = (t.left c).head? := by
  rw [entryAt, left]
  split
  · next h0 =>
      obtain ⟨e, he⟩ := Option.ne_none_iff_exists'.1 (h.1 h0)
      obtain ⟨hlt, rfl⟩ := List.getElem?_eq_some_iff.1 he
      rw [he, List.drop_eq_getElem_cons hlt]
      rfl
  · next h0 =>
      rw [Cursor.filter_drop (h.2 h0)]
      cases hget : t.pubOld.entries[c.loc]? with
      | some e => rfl
      | none =>
        have hle := List.getElem?_eq_none_iff.1 hget
        rw [List.drop_eq_nil_of_le (Nat.le_succ_of_le hle)]
        rfl

theorem at_next {c : GenLoc} (h : t.At c) (hne : t.left c ≠ []) :
    t.At (t.next c) ∧ t.left (t.next c) = (t.left c).tail := by
  by_cases h0 : c.which = 0
  · obtain ⟨e, he⟩ := Option.ne_none_iff_exists'.1 (h.1 h0)
    obtain ⟨hlt, -⟩ := List.getElem?_eq_some_iff.1 he
    have htail : (t.left c).tail =
        t.pub.entries.drop (c.loc + 1) ++ t.pubOld.entries.filter shows := by
      rw [left, if_pos h0, List.drop_eq_getElem_cons hlt]
      rfl
    rw [next, if_pos h0, htail]
    split
    · next hsome =>
        exact ⟨⟨fun _ => Option.isSome_iff_ne_none.1 hsome, fun hn => absurd rfl hn⟩, rfl⟩
    · next hnone =>
        have hle := List.getElem?_eq_none_iff.1 (Option.not_isSome_iff_eq_none.1 hnone)
        rw [List.drop_eq_nil_of_le hle]
        exact t.at_skipOld 0
  · rw [next, if_neg h0]
    obtain ⟨hat, hleft⟩ := t.at_skipOld (c.loc + 1)
    refine ⟨hat, hleft.trans ?_⟩
    rw [left, if_neg h0] at hne ⊢
    rw [Cursor.filter_drop (h.2 h0)] at hne ⊢
    cases hget : t.pubOld.entries[c.loc]? with
    | some e => rfl
    | none =>
      have hle := List.getElem?_eq_none_iff.1 hget
      rw [hget, List.drop_eq_nil_of_le (Nat.le_succ_of_le hle)] at hne
      exact absurd rfl hne

theorem at_first :
    t.At t.first ∧ t.left t.first = t.pub.entries ++ t.pubOld.entries.filter shows := by
  rw [first]
  split
  · next hsome =>
      exact ⟨⟨fun _ => Option.isSome_iff_ne_none.1 hsome, fun hn => absurd rfl hn⟩, rfl⟩
  · next hnone =>
      have hnil : t.pub.entries = [] := by
        have hle := List.getElem?_eq_none_iff.1 (Option.not_isSome_iff_eq_none.1 hnone)
        exact List.eq_nil_of_length_eq_zero (Nat.le_zero.1 hle)
      rw [hnil, List.nil_append]
      cases hold : t.pubOld.entries with
      | nil =>
        rw [List.getElem?_nil]
        dsimp only
        refine ⟨⟨fun h => absurd h Nat.one_ne_zero, fun _ e he => ?_⟩, ?_⟩
        · rw [hold] at he
          cases he
        · rw [left, if_neg Nat.one_ne_zero, hold]
          rfl
      | cons e es =>
        rw [List.getElem?_cons_zero]
        dsimp only
        -- a first entry with stamp 0 is passed over in `next`
        split
        · next hstamp =>
            obtain ⟨hat, hleft⟩ := t.at_skipOld 1
            have hshows : ¬ shows e = true := by
              rw [shows, decide_eq_true hstamp]
              exact Bool.false_ne_true
            rw [hold, List.drop_one, List.tail_cons] at hleft
            refine ⟨hat, hleft.trans ?_⟩
            rw [List.filter_cons_of_neg hshows]
        · next hstamp =>
            refine ⟨⟨fun h => absurd h Nat.one_ne_zero, fun _ e' he' => ?_⟩, ?_⟩
            · rw [hold] at he'
              obtain rfl : e = e' := Option.some.inj he'
              rw [shows, decide_eq_false hstamp]
              rfl
            · rw [left, if_neg Nat.one_ne_zero, hold]
              rfl

/-- The loop goes through the newer generation and what is shown of the older one. -/
theorem walk_eq : t.walk = some (t.pub.entries ++ t.pubOld.entries.filter shows) := by
  obtain ⟨hat, hleft⟩ := t.at_first
  have hhead : ∀ c, t.At c → t.entryAt c = (t.left c).head? := fun c hc => t.at_head hc
  have htail : ∀ c, t.At c → t.left c ≠ [] →
      t.At (t.next c) ∧ t.left (t.next c) = (t.left c).tail := fun c hc hne => t.at_next hc hne
  rw [walk, ← hleft]
  apply Cursor.walk_eq hhead htail hat
  rw [hleft, List.length_append]
  have hle := List.length_filter_le shows t.pubOld.entries
  omega

end PubTab

namespace SeqnoTab

variable (t : SeqnoTab)

/-- The cursor is at an entry of the newest generation or at one of an older that is
shown, or the tables ended. -/
structure At (c : GenLoc) : Prop where
  tab : c.which = 0 → t.tab.entries[c.loc]? ≠ none
  old : c.which = 1 → t.tabOld.entries[c.loc]?.any shows = true
  old2 : c.which ≠ 0 → c.which ≠ 1 → ∀ e, t.tabOld2.entries[c.loc]? = some e → shows e = true

/-- What is left from the cursor on. -/
def left (c : GenLoc) : List (Sigma fun _ : RouteKey => SubSeqno) :=
  if c.which = 0 then
    t.tab.entries.drop c.loc ++ (t.tabOld.entries.filter shows ++ t.tabOld2.entries.filter shows)
  else if c.which = 1 then
    (t.tabOld.entries.drop c.loc).filter shows ++ t.tabOld2.entries.filter shows
  else (t.tabOld2.entries.drop c.loc).filter shows

theorem skip_spec (tab : RouteVec SubSeqno) (loc : ℕ) :
    (tab.entries.drop (skip tab loc)).filter shows = (tab.entries.drop loc).filter shows ∧
      ∀ e, tab.entries[skip tab loc]? = some e → shows e = true :=
  Cursor.filter_drop_seek (Nat.le_add_left _ _)

/-- A table is looked at behind its first entry only if that is not shown. -/
theorem filter_of_not_any {tab : RouteVec SubSeqno}
    (h : ¬ tab.entries[0]?.any shows = true) :
    (tab.entries.drop 1).filter shows = tab.entries.filter shows := by
  cases hentries : tab.entries with
  | nil => rfl
  | cons e es =>
    rw [hentries] at h
    have hshows : ¬ shows e = true := h
    rw [List.drop_one, List.tail_cons, List.filter_cons_of_neg hshows]

theorem next2_spec (loc : ℕ) :
    t.At (t.next2 loc) ∧
      t.left (t.next2 loc) = (t.tabOld2.entries.drop (loc + 1)).filter shows := by
  obtain ⟨hfilter, hshown⟩ := skip_spec t.tabOld2 (loc + 1)
  exact ⟨⟨fun h => absurd h (Nat.succ_ne_zero 1),
    fun h => absurd h (Nat.succ_succ_ne_one 0), fun _ _ => hshown⟩, hfilter⟩

/-- The oldest generation is entered. -/
theorem enter2_spec (c : GenLoc)
    (hc : c = if t.tabOld2.entries[0]?.any shows then ⟨0, 2⟩ else t.next2 0) :
    t.At c ∧ t.left c = t.tabOld2.entries.filter shows := by
  subst hc
  split
  · next hany =>
      refine ⟨⟨fun h => absurd h (Nat.succ_ne_zero 1),
        fun h => absurd h (Nat.succ_succ_ne_one 0), fun _ _ e he => ?_⟩, rfl⟩
      obtain ⟨e', he', hshown⟩ := (Option.any_eq_true _ _).1 hany
      have heq : some e' = some e := he'.symm.trans he
      exact Option.some.inj heq ▸ hshown
  · next hany =>
      obtain ⟨hat, hleft⟩ := t.next2_spec 0
      exact ⟨hat, hleft.trans (filter_of_not_any hany)⟩

theorem next1_spec (loc : ℕ) :
    t.At (t.next1 loc) ∧ t.left (t.next1 loc) =
      (t.tabOld.entries.drop (loc + 1)).filter shows ++ t.tabOld2.entries.filter shows := by
  obtain ⟨hfilter, hshown⟩ := skip_spec t.tabOld (loc + 1)
  rw [next1]
  split
  · next hsome =>
      obtain ⟨e, he⟩ := Option.isSome_iff_exists.1 hsome
      refine ⟨⟨fun h => absurd h Nat.one_ne_zero, fun _ => ?_, fun _ h => absurd rfl h⟩, ?_⟩
      · rw [he]
        exact hshown e he
      · rw [← hfilter]
        rfl
  · next hnone =>
      have hle := List.getElem?_eq_none_iff.1 (Option.not_isSome_iff_eq_none.1 hnone)
      rw [List.drop_eq_nil_of_le hle] at hfilter
      rw [← hfilter]
      exact t.enter2_spec _ rfl

theorem at_head {c : GenLoc} (h : t.At c) : t.entryAt c = (t.left c).head? := by
  rw [entryAt, left]
  split
  · next h0 =>
      obtain ⟨e, he⟩ := Option.ne_none_iff_exists'.1 (h.tab h0)
      obtain ⟨hlt, rfl⟩ := List.getElem?_eq_some_iff.1 he
      rw [he, List.drop_eq_getElem_cons hlt]
      rfl
  · next h0 =>
      split
      · next h1 =>
          obtain ⟨e, he, hshown⟩ := (Option.any_eq_true _ _).1 (h.old h1)
          obtain ⟨hlt, rfl⟩ := List.getElem?_eq_some_iff.1 he
          rw [he, List.drop_eq_getElem_cons hlt, List.filter_cons_of_pos hshown]
          rfl
      · next h1 =>
          rw [Cursor.filter_drop (h.old2 h0 h1)]
          cases hget : t.tabOld2.entries[c.loc]? with
          | some e => rfl
          | none =>
            have hle := List.getElem?_eq_none_iff.1 hget
            rw [List.drop_eq_nil_of_le (Nat.le_succ_of_le hle)]
            rfl

theorem at_next {c : GenLoc} (h : t.At c) (hne : t.left c ≠ []) :
    t.At (t.next c) ∧ t.left (t.next c) = (t.left c).tail := by
  by_cases h0 : c.which = 0
  · obtain ⟨e, he⟩ := Option.ne_none_iff_exists'.1 (h.tab h0)
    obtain ⟨hlt, -⟩ := List.getElem?_eq_some_iff.1 he
    have htail : (t.left c).tail = t.tab.entries.drop (c.loc + 1) ++
        (t.tabOld.entries.filter shows ++ t.tabOld2.entries.filter shows) := by
      rw [left, if_pos h0, List.drop_eq_getElem_cons hlt]
      rfl
    rw [next, if_pos h0, htail]
    split
    · next hsome =>
        exact ⟨⟨fun _ => Option.isSome_iff_ne_none.1 hsome, fun h => absurd h Nat.zero_ne_one,
          fun hn => absurd rfl hn⟩, rfl⟩
    · next hnone =>
        have hle := List.getElem?_eq_none_iff.1 (Option.not_isSome_iff_eq_none.1 hnone)
        rw [List.drop_eq_nil_of_le hle, List.nil_append]
        split
        · next hany =>
            exact ⟨⟨fun h => absurd h Nat.one_ne_zero, fun _ => hany, fun _ hn => absurd rfl hn⟩,
              rfl⟩
        · next hany =>
            obtain ⟨hat, hleft⟩ := t.next1_spec 0
            rw [filter_of_not_any hany] at hleft
            exact ⟨hat, hleft⟩
  · by_cases h1 : c.which = 1
    · obtain ⟨e, he, hshown⟩ := (Option.any_eq_true _ _).1 (h.old h1)
      obtain ⟨hlt, rfl⟩ := List.getElem?_eq_some_iff.1 he
      obtain ⟨hat, hleft⟩ := t.next1_spec c.loc
      rw [next, if_neg h0, if_pos h1]
      refine ⟨hat, hleft.trans ?_⟩
      rw [left, if_neg h0, if_pos h1, List.drop_eq_getElem_cons hlt,
        List.filter_cons_of_pos hshown]
      rfl
    · obtain ⟨hat, hleft⟩ := t.next2_spec c.loc
      rw [next, if_neg h0, if_neg h1]
      refine ⟨hat, hleft.trans ?_⟩
      rw [left, if_neg h0, if_neg h1] at hne ⊢
      rw [Cursor.filter_drop (h.old2 h0 h1)] at hne ⊢
      cases hget : t.tabOld2.entries[c.loc]? with
      | some e => rfl
      | none =>
        have hle := List.getElem?_eq_none_iff.1 hget
        rw [hget, List.drop_eq_nil_of_le (Nat.le_succ_of_le hle)] at hne
        exact absurd rfl hne

theorem at_first :
    t.At t.first ∧ t.left t.first =
      t.tab.entries ++ (t.tabOld.entries.filter shows ++ t.tabOld2.entries.filter shows) := by
  obtain ⟨hold, hshown⟩ := skip_spec t.tabOld 0
  obtain ⟨hold2, hshown2⟩ := skip_spec t.tabOld2 0
  rw [first]
  split
  · next hsome =>
      exact ⟨⟨fun _ => Option.isSome_iff_ne_none.1 hsome, fun h => absurd h Nat.zero_ne_one,
        fun hn => absurd rfl hn⟩, rfl⟩
  · next hnone =>
      have hnil : t.tab.entries = [] := by
        have hle := List.getElem?_eq_none_iff.1 (Option.not_isSome_iff_eq_none.1 hnone)
        exact List.eq_nil_of_length_eq_zero (Nat.le_zero.1 hle)
      rw [hnil, List.nil_append]
      split
      · next hsome =>
          obtain ⟨e, he⟩ := Option.isSome_iff_exists.1 hsome
          refine ⟨⟨fun h => absurd h Nat.one_ne_zero, fun _ => ?_, fun _ hn => absurd rfl hn⟩, ?_⟩
          · rw [he]
            exact hshown e he
          · rw [left, if_neg Nat.one_ne_zero, if_pos rfl, hold, List.drop_zero]
      · next hnone =>
          have hle := List.getElem?_eq_none_iff.1 (Option.not_isSome_iff_eq_none.1 hnone)
          rw [List.drop_eq_nil_of_le hle, List.drop_zero] at hold
          refine ⟨⟨fun h => absurd h (Nat.succ_ne_zero 1),
            fun h => absurd h (Nat.succ_succ_ne_one 0), fun _ _ => hshown2⟩, ?_⟩
          rw [← hold]
          exact hold2

/-- The loop goes through the newest generation and what is shown of the older ones. -/
theorem walk_eq : t.walk = some (t.tab.entries ++
    (t.tabOld.entries.filter shows ++ t.tabOld2.entries.filter shows)) := by
  obtain ⟨hat, hleft⟩ := t.at_first
  have hhead : ∀ c, t.At c → t.entryAt c = (t.left c).head? := fun c hc => t.at_head hc
  have htail : ∀ c, t.At c → t.left c ≠ [] →
      t.At (t.next c) ∧ t.left (t.next c) = (t.left c).tail := fun c hc hne => t.at_next hc hne
  rw [walk, ← hleft]
  apply Cursor.walk_eq hhead htail hat
  rw [hleft, List.length_append, List.length_append]
  have hle := List.length_filter_le shows t.tabOld.entries
  have hle2 := List.length_filter_le shows t.tabOld2.entries
  omega

end SeqnoTab

end Raims
