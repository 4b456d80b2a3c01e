import Raims.Sub.SubList

/-!
# Walking the log (`SubListIter`)

`first` looks in each array for the first slot that is not below `seqno`, and `next` goes on with
the live slots behind it; when an array ends, the search goes on in the next one, from the
sequence number after the last. On a log that is in order this gives the entries from `seqno` on,
up to `end`, each once.
-/

namespace Raims

namespace SubElem

variable (el : SubElem)

/-- The loop of `get_first_seqno`. -/
def firstFrom (sno : ℕ) : ℕ → ℕ → Option ℕ
  | 0, _ => none
  | fuel + 1, i => if sno ≤ (el.slot i).seqno then some i else firstFrom sno fuel (i + 1)

/-- `get_first_seqno`: the index of the slot. -/
def getFirstSeqno (sno : ℕ) : Option ℕ :=
  if el.isEmpty ∨ (el.slot (el.last - 1)).seqno < sno then none
  else el.firstFrom sno (el.last - el.first) el.first

/-- The loop of `get_next_seqno`. -/
def nextFrom : ℕ → ℕ → Option ℕ
  | 0, _ => none
  | fuel + 1, i => if (el.slot i).seqno ≠ 0 then some i else nextFrom fuel (i + 1)

/-- `get_next_seqno`: the index of the slot. -/
def getNextSeqno (off : ℕ) : Option ℕ := el.nextFrom (el.last - (off + 1)) (off + 1)

end SubElem

/-- `SubListIter`. The arrays from the current one on. -/
structure SubListIter where
  el : List SubElem
  /-- `end` -/
  stop : ℕ
  seqno : ℕ
  hash : UInt32
  off : ℕ
  action : SubAction

namespace SubListIter

/-- The iterator over `start` up to `end`, with both. -/
def new (subs : SubList) (start stop : ℕ) : SubListIter :=
  ⟨subs.list, stop, start, 0, 0, .subJoin⟩

variable (it : SubListIter)

/-- The slot of the iterator. -/
def current : SubEntry := ⟨it.seqno, it.hash, it.action⟩

/-- The iterator at slot `i` of an array. -/
def setAt (el : SubElem) (els : List SubElem) (i : ℕ) : SubListIter :=
  { it with
    el := el :: els
    seqno := (el.slot i).seqno
    hash := (el.slot i).hash
    off := i
    action := (el.slot i).action }

/-- The loop of `first`. -/
def firstIn : List SubElem → SubListIter × Bool
  | [] => ({ it with el := [] }, false)
  | el :: els =>
    match el.getFirstSeqno it.seqno with
    | some i => (it.setAt el els i, (it.setAt el els i).seqno ≤ it.stop)
    | none => firstIn els

/-- `first` -/
def first : SubListIter × Bool := it.firstIn it.el

/-- `next` -/
def next : SubListIter × Bool :=
  match it.el with
  | [] => (it, false)
  | el :: els =>
    match el.getNextSeqno it.off with
    | some i => (it.setAt el els i, (it.setAt el els i).seqno ≤ it.stop)
    | none =>
      let it := { it with el := els, seqno := (it.seqno + 1) % 2 ^ 64 }
      it.first

/-- `if ( iter.first() ) do { .. } while ( iter.next() )`, none when the fuel is used up. -/
def forEach {σ : Type*} (body : σ → SubEntry → σ) : ℕ → SubListIter × Bool → σ → Option σ
  | 0, _, _ => none
  | fuel + 1, (it, ok), s => if ok then forEach body fuel it.next (body s it.current) else some s

end SubListIter

/-! ## The slots that are found -/

namespace SubElem

variable {el : SubElem} {sno fuel i k off : ℕ}

theorem firstFrom_some (h : el.firstFrom sno fuel i = some k) :
    i ≤ k ∧ k < i + fuel ∧ sno ≤ (el.slot k).seqno ∧
      ∀ m, i ≤ m → m < k → (el.slot m).seqno < sno := by
  induction fuel generalizing i with
  | zero => cases h
  | succ fuel ih =>
    rw [firstFrom] at h
    split at h
    · next hle =>
        cases h
        exact ⟨le_refl _, by omega, hle, fun m hm hlt => absurd hlt (Nat.not_lt.mpr hm)⟩
    · next hgt =>
        obtain ⟨h1, h2, h3, h4⟩ := ih h
        refine ⟨by omega, by omega, h3, fun m hm hlt => ?_⟩
        rcases Nat.eq_or_lt_of_le hm with rfl | hm
        · exact Nat.not_le.mp hgt
        · exact h4 m hm hlt

theorem firstFrom_none (h : el.firstFrom sno fuel i = none) {m : ℕ} (hm : i ≤ m)
    (hlt : m < i + fuel) : (el.slot m).seqno < sno := by
  induction fuel generalizing i with
  | zero => omega
  | succ fuel ih =>
    rw [firstFrom] at h
    split at h
    · cases h
    · next hgt =>
        rcases Nat.eq_or_lt_of_le hm with rfl | hm
        · exact Nat.not_le.mp hgt
        · exact ih h hm (by omega)

theorem nextFrom_some (h : el.nextFrom fuel i = some k) :
    i ≤ k ∧ k < i + fuel ∧ (el.slot k).seqno ≠ 0 ∧ Slots.live isLive el.slot i k = [] := by
  induction fuel generalizing i with
  | zero => cases h
  | succ fuel ih =>
    rw [nextFrom] at h
    split at h
    · next hlive =>
        cases h
        exact ⟨le_refl _, by omega, hlive, Slots.live_of_le (le_refl _)⟩
    · next hdead =>
        obtain ⟨h1, h2, h3, h4⟩ := ih h
        refine ⟨by omega, by omega, h3, ?_⟩
        rw [Slots.live_cons (by omega), h4, if_neg (by simpa [isLive] using hdead)]
        rfl

theorem nextFrom_none (h : el.nextFrom fuel i = none) :
    Slots.live isLive el.slot i (i + fuel) = [] := by
  induction fuel generalizing i with
  | zero => exact Slots.live_of_le (le_refl _)
  | succ fuel ih =>
    rw [nextFrom] at h
    split at h
    · cases h
    · next hdead =>
        have hrest := ih h
        rw [Nat.add_assoc, Nat.add_comm 1 fuel] at hrest
        rw [Slots.live_cons (by omega), hrest, if_neg (by simpa [isLive] using hdead)]
        rfl

/-- Where an array is entered: what is left out is below `sno`. -/
theorem Inv.getFirstSeqno_some (h : el.Inv) (hf : el.getFirstSeqno sno = some i) :
    el.first ≤ i ∧ i < el.last ∧ sno ≤ (el.slot i).seqno ∧ (el.slot i).seqno ≠ 0 ∧
      ∃ before, el.entries = before ++ el.slot i :: Slots.live isLive el.slot (i + 1) el.last ∧
        ∀ e ∈ before, e.seqno < sno := by
  unfold getFirstSeqno at hf
  split at hf
  · cases hf
  · obtain ⟨h1, h2, h3, h4⟩ := firstFrom_some hf
    have hlt : i < el.last := by omega
    have hlive : (el.slot i).seqno ≠ 0 := by
      intro hzero
      -- a search for 0 stops at the first slot, which is live
      have hfirst : el.first = i := by
        by_contra hne
        have := h4 el.first (le_refl _) (lt_of_le_of_ne h1 hne)
        omega
      exact h.live_first (by omega) (hfirst ▸ hzero)
    refine ⟨h1, hlt, h3, hlive, _, entries_split h1 hlt hlive, ?_⟩
    intro e he
    obtain ⟨m, hm, hmi, -, rfl⟩ := Slots.mem_live.mp he
    exact h4 m hm hmi

theorem Inv.getFirstSeqno_none (h : el.Inv) (hf : el.getFirstSeqno sno = none) :
    ∀ e ∈ el.entries, e.seqno < sno := by
  intro e he
  obtain ⟨m, hm, hlt, hlive, rfl⟩ := Slots.mem_live.mp he
  unfold getFirstSeqno at hf
  split at hf
  · next hcase =>
      rcases hcase with hempty | hlast
      · rw [h.isEmpty_iff.mp hempty] at he
        cases he
      · -- the last slot is the greatest
        rcases Nat.lt_or_ge m (el.last - 1) with hml | hml
        · have hord := h.ordered
          rw [entries_split hm hlt (isLive_iff.mp hlive), List.map_append,
            List.pairwise_append] at hord
          have hmem : el.slot (el.last - 1) ∈ Slots.live isLive el.slot (m + 1) el.last :=
            Slots.mem_live.mpr ⟨el.last - 1, by omega, by omega,
              isLive_iff.mpr (h.live_last (by omega)), rfl⟩
          have hless := (List.pairwise_cons.mp hord.2.1).1 _ (List.mem_map_of_mem hmem)
          exact Nat.lt_trans hless hlast
        · obtain rfl : m = el.last - 1 := by omega
          exact hlast
  · exact firstFrom_none hf hm (by omega)

/-- The slot behind `off`. -/
theorem getNextSeqno_some (hf : el.getNextSeqno off = some i) :
    off < i ∧ i < el.last ∧ (el.slot i).seqno ≠ 0 ∧
      Slots.live isLive el.slot (off + 1) el.last =
        el.slot i :: Slots.live isLive el.slot (i + 1) el.last := by
  obtain ⟨h1, h2, h3, h4⟩ := nextFrom_some hf
  have hlt : i < el.last := by omega
  refine ⟨h1, hlt, h3, ?_⟩
  rw [Slots.live_append h1 hlt.le, h4, Slots.live_cons hlt, if_pos (isLive_iff.mpr h3)]
  rfl

theorem getNextSeqno_none (hoff : off < el.last) (hf : el.getNextSeqno off = none) :
    Slots.live isLive el.slot (off + 1) el.last = [] := by
  have hnone := nextFrom_none hf
  rwa [Nat.add_sub_cancel' hoff] at hnone

end SubElem

/-! ## The walk -/

namespace SubListIter

variable {it : SubListIter} {els : List SubElem} {rest : List SubEntry}

/-- The iterator stands at a live slot, and `rest` is what is behind it. -/
def At (it : SubListIter) (rest : List SubEntry) : Prop :=
  ∃ el els, it.el = el :: els ∧ it.off < el.last ∧
    rest = Slots.live SubElem.isLive el.slot (it.off + 1) el.last ++ els.flatMap SubElem.entries ∧
    ∀ x ∈ els, x.Inv

theorem at_setAt (el : SubElem) {i : ℕ} (hi : i < el.last) (hels : ∀ x ∈ els, x.Inv) :
    (it.setAt el els i).At
      (Slots.live SubElem.isLive el.slot (i + 1) el.last ++ els.flatMap SubElem.entries) :=
  ⟨el, els, rfl, hi, rfl, hels⟩

/-- The search finds the first entry that is not below `seqno`. -/
theorem firstIn_spec (it : SubListIter) (hels : ∀ el ∈ els, el.Inv) :
    ((∀ e ∈ els.flatMap SubElem.entries, e.seqno < it.seqno) ∧ (it.firstIn els).2 = false) ∨
      ∃ it' before rest, it.firstIn els = (it', decide (it'.seqno ≤ it.stop)) ∧
        it'.stop = it.stop ∧ it'.At rest ∧ it.seqno ≤ it'.seqno ∧
        els.flatMap SubElem.entries = before ++ it'.current :: rest ∧
        ∀ e ∈ before, e.seqno < it.seqno := by
  induction els with
  | nil => exact Or.inl ⟨by simp, rfl⟩
  | cons el els ih =>
    have hel : el.Inv := hels el List.mem_cons_self
    have hrest : ∀ x ∈ els, x.Inv := fun x hx => hels x (List.mem_cons_of_mem _ hx)
    rw [firstIn, List.flatMap_cons]
    cases hf : el.getFirstSeqno it.seqno with
    | some i =>
      obtain ⟨-, hlt, hle, -, before, hentries, hbefore⟩ := hel.getFirstSeqno_some hf
      refine Or.inr ⟨it.setAt el els i, before, _, rfl, rfl, at_setAt el hlt hrest, hle, ?_,
        hbefore⟩
      rw [hentries, List.append_assoc]
      rfl
    | none =>
      have hbelow := hel.getFirstSeqno_none hf
      rcases ih hrest with ⟨hall, hend⟩ | ⟨it', before, rest, hit, hstop, hat, hle, heq, hb⟩
      · refine Or.inl ⟨fun e he => ?_, hend⟩
        rcases List.mem_append.mp he with he | he
        · exact hbelow e he
        · exact hall e he
      · refine Or.inr ⟨it', el.entries ++ before, rest, hit, hstop, hat, hle, ?_, ?_⟩
        · rw [heq, List.append_assoc]
        · intro e he
          rcases List.mem_append.mp he with he | he
          · exact hbelow e he
          · exact hb e he

/-- `next` goes to the entry behind. -/
theorem next_spec (hat : it.At rest) (hord : ∀ e ∈ rest, it.seqno < e.seqno) :
    (rest = [] ∧ it.next.2 = false) ∨
      ∃ it' rest', it.next = (it', decide (it'.seqno ≤ it.stop)) ∧ it'.stop = it.stop ∧
        it'.At rest' ∧ rest = it'.current :: rest' := by
  obtain ⟨el, els, hel, hoff, hrest, hels⟩ := hat
  unfold next
  rw [hel]
  simp only
  cases hn : el.getNextSeqno it.off with
  | some i =>
    obtain ⟨-, hlt, -, hlive⟩ := SubElem.getNextSeqno_some hn
    refine Or.inr ⟨it.setAt el els i, _, rfl, rfl, at_setAt el hlt hels, ?_⟩
    rw [hrest, hlive]
    rfl
  | none =>
    rw [SubElem.getNextSeqno_none hoff hn, List.nil_append] at hrest
    have hsno : (it.seqno + 1) % 2 ^ 64 ≤ it.seqno + 1 := Nat.mod_le _ _
    have hge : ∀ e ∈ rest, (it.seqno + 1) % 2 ^ 64 ≤ e.seqno :=
      fun e he => Nat.le_trans hsno (hord e he)
    rcases firstIn_spec { it with el := els, seqno := (it.seqno + 1) % 2 ^ 64 } hels with
      ⟨hall, hend⟩ | ⟨it', before, rest', hit, hstop, hat', -, heq, hbefore⟩
    · refine Or.inl ⟨?_, hend⟩
      rw [← hrest] at hall
      refine List.eq_nil_iff_forall_not_mem.mpr fun e he => ?_
      exact absurd (hall e he) (Nat.not_lt.mpr (hge e he))
    · refine Or.inr ⟨it', rest', hit, hstop, hat', ?_⟩
      rw [← hrest] at heq
      -- nothing is left out, for all that is behind is above
      have hnil : before = [] := by
        refine List.eq_nil_iff_forall_not_mem.mpr fun e he => ?_
        have hmem : e ∈ rest := by
          rw [heq]
          exact List.mem_append_left _ he
        exact absurd (hbefore e he) (Nat.not_lt.mpr (hge e hmem))
      rw [heq, hnil, List.nil_append]

/-- The loop from a slot on: the entries up to `end`, in order. -/
theorem forEach_at {σ : Type*} (body : σ → SubEntry → σ) {fuel : ℕ} (hat : it.At rest)
    (hord : ((it.current :: rest).map SubEntry.seqno).Pairwise (· < ·))
    (hfuel : rest.length + 1 < fuel) (s : σ) :
    forEach body fuel (it, decide (it.seqno ≤ it.stop)) s =
      some (((it.current :: rest).filter fun e => e.seqno ≤ it.stop).foldl body s) := by
  induction fuel generalizing it rest s with
  | zero => omega
  | succ fuel ih =>
    rw [List.map_cons, List.pairwise_cons] at hord
    have habove : ∀ e ∈ rest, it.seqno < e.seqno :=
      fun e he => hord.1 e.seqno (List.mem_map_of_mem he)
    rw [forEach]
    by_cases hle : it.seqno ≤ it.stop
    · have hcur : it.current.seqno ≤ it.stop := hle
      rw [if_pos (decide_eq_true hle), List.filter_cons_of_pos (by simpa using hcur),
        List.foldl_cons]
      rcases next_spec hat habove with ⟨rfl, hend⟩ | ⟨it', rest', hnext, hstop, hat', rfl⟩
      · obtain ⟨fuel, rfl⟩ := Nat.exists_eq_add_of_lt (Nat.lt_of_succ_lt_succ hfuel)
        have hpair : it.next = (it.next.1, false) := by rw [← hend]
        rw [hpair]
        simp [forEach]
      · rw [hnext, ← hstop]
        exact ih hat' hord.2 (by simpa using hfuel) _
    · -- the entries behind are above `end` too
      have hcur : ¬ it.current.seqno ≤ it.stop := hle
      have hnil : ((it.current :: rest).filter fun e => e.seqno ≤ it.stop) = [] := by
        refine List.filter_eq_nil_iff.mpr fun e he => ?_
        rcases List.mem_cons.mp he with rfl | he
        · simpa using hcur
        · have := habove e he
          simp only [decide_eq_true_eq]
          omega
      rw [if_neg (by simpa using hle), hnil]
      rfl

/-- **The walk goes through the entries from `start` up to `end`**, in the order of the log, each
once. -/
theorem forEach_first {σ : Type*} (body : σ → SubEntry → σ) {l : SubList} (h : l.Inv)
    (start stop : ℕ) {fuel : ℕ} (hfuel : l.entries.length < fuel) (s : σ) :
    forEach body fuel (SubListIter.new l start stop).first s =
      some ((l.entries.filter fun e => start ≤ e.seqno ∧ e.seqno ≤ stop).foldl body s) := by
  have hels : ∀ el ∈ l.list, el.Inv := fun el hel => (h.elems el hel).1
  rcases firstIn_spec (SubListIter.new l start stop) hels with
    ⟨hall, hend⟩ | ⟨it', before, rest, hit, hstop, hat, hle, heq, hbefore⟩
  · have hnil : (l.entries.filter fun e => start ≤ e.seqno ∧ e.seqno ≤ stop) = [] := by
      refine List.filter_eq_nil_iff.mpr fun e he => ?_
      have hlt : e.seqno < start := hall e he
      simp only [decide_eq_true_eq]
      omega
    obtain ⟨fuel, rfl⟩ := Nat.exists_eq_add_of_lt hfuel
    have hpair : (SubListIter.new l start stop).first =
        ((SubListIter.new l start stop).first.1, false) := by
      rw [← hend]
      rfl
    rw [hpair, hnil]
    simp [forEach]
  · have hentries : l.entries = before ++ it'.current :: rest := heq
    have hord := h.ordered
    rw [hentries, List.map_append, List.pairwise_append] at hord
    have hfirst : (SubListIter.new l start stop).first =
        (it', decide (it'.seqno ≤ it'.stop)) := by
      rw [hstop]
      exact hit
    have hlen : rest.length + 1 < fuel := by
      rw [hentries, List.length_append, List.length_cons] at hfuel
      omega
    rw [hfirst, forEach_at body hat hord.2.1 hlen s, hentries, List.filter_append]
    have hnil : (before.filter fun e => start ≤ e.seqno ∧ e.seqno ≤ stop) = [] := by
      refine List.filter_eq_nil_iff.mpr fun e he => ?_
      have hlt : e.seqno < start := hbefore e he
      simp only [decide_eq_true_eq]
      omega
    rw [hnil, List.nil_append]
    congr 2
    refine List.filter_congr fun e he => ?_
    have hge : start ≤ e.seqno := by
      rcases List.mem_cons.mp he with rfl | he
      · exact hle
      · rw [List.map_cons, List.pairwise_cons] at hord
        have hlt := hord.2.1.1 e.seqno (List.mem_map_of_mem he)
        exact Nat.le_trans hle (Nat.le_of_lt hlt)
    have hstop' : it'.stop = stop := hstop
    simp [hge, hstop']

end SubListIter

end Raims
