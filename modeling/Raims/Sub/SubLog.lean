import Raims.Sub.SubDB
import Raims.Lib.Run
import Mathlib.Tactic.Abel

/-!
# The log of subscriptions and the routes

The operations on the route tables write `sub_list` as they go. In every run
whose pushes get a new sequence number, the log has one entry per route, and the
sequence numbers pushed ascend.
-/

namespace Raims

/-! ## A log of a multiset of routes -/

/-- The log has the entries `routes`, and no sequence number pushed so far is above
`seqno`. -/
structure Logged (list : SubList) (seqno : ℕ) (routes : Multiset SubEntry) : Prop where
  inv : list.Inv
  entries_eq : (list.entries : Multiset SubEntry) = routes
  pushed : ∀ x ∈ list.pushed, x ≠ 0 ∧ x ≤ seqno
  ascending : list.pushed.Pairwise (· < ·)
  bounded : ∀ e ∈ routes, e.seqno ≤ seqno

namespace Logged

variable {list : SubList} {n : ℕ} {routes : Multiset SubEntry}

theorem empty : Logged .empty 0 0 :=
  ⟨.empty, rfl, by simp [SubList.empty], by simp [SubList.empty], by simp⟩

theorem mono (h : Logged list n routes) {m : ℕ} (hm : n ≤ m) : Logged list m routes :=
  ⟨h.inv, h.entries_eq, fun x hx => ⟨(h.pushed x hx).1, (h.pushed x hx).2.trans hm⟩, h.ascending,
    fun e he => (h.bounded e he).trans hm⟩

/-- The next sequence number is pushed with a new route. -/
theorem push (h : Logged list n routes) (hw : ¬ list.TailWrapped) (hash : UInt32)
    (a : SubAction) :
    Logged (list.push (n + 1) hash a) (n + 1) (⟨n + 1, hash, a⟩ ::ₘ routes) := by
  have hgt : ∀ x ∈ list.entries, x.seqno < n + 1 := by
    intro x hx
    rw [← Multiset.mem_coe, h.entries_eq] at hx
    exact Nat.lt_succ_of_le (h.bounded x hx)
  obtain ⟨hinv, hent⟩ := h.inv.push hw (Nat.succ_ne_zero n) hgt hash a
  refine ⟨hinv, ?_, ?_, ?_, ?_⟩
  · rw [hent, ← Multiset.coe_add, h.entries_eq, add_comm]
    rfl
  · intro x hx
    rcases List.mem_append.1 hx with hx | hx
    · exact ⟨(h.pushed x hx).1, Nat.le_succ_of_le (h.pushed x hx).2⟩
    · rw [List.mem_singleton.1 hx]
      exact ⟨Nat.succ_ne_zero n, le_refl _⟩
  · refine List.pairwise_append.2 ⟨h.ascending, List.pairwise_singleton _ _, ?_⟩
    intro x hx y hy
    rw [List.mem_singleton.1 hy]
    exact Nat.lt_succ_of_le (h.pushed x hx).2
  · intro e he
    rcases Multiset.mem_cons.1 he with rfl | he
    · exact le_refl _
    · exact Nat.le_succ_of_le (h.bounded e he)

/-- The sequence number of a route that goes is popped. -/
theorem pop {e : SubEntry} (h : Logged list n (e ::ₘ routes)) :
    Logged (list.pop e.seqno).1 n routes := by
  obtain ⟨hinv, hent, -⟩ := h.inv.pop e.seqno
  -- no other route has the sequence number, for they ascend in the log
  have hnodup : ((e ::ₘ routes).map SubEntry.seqno).Nodup := by
    rw [← h.entries_eq, Multiset.map_coe, Multiset.coe_nodup]
    exact h.inv.ordered.imp Nat.ne_of_lt
  rw [Multiset.map_cons, Multiset.nodup_cons] at hnodup
  refine ⟨hinv, ?_, h.pushed, h.ascending, fun x hx => h.bounded x (Multiset.mem_cons_of_mem hx)⟩
  have hfilter : (list.entries.filter (·.seqno ≠ e.seqno) : Multiset SubEntry) =
      (e ::ₘ routes).filter (·.seqno ≠ e.seqno) := by
    rw [← h.entries_eq, Multiset.filter_coe]
  rw [hent, hfilter, Multiset.filter_cons_of_neg _ (by simp)]
  refine Multiset.filter_eq_self.2 fun x hx heq => ?_
  exact hnodup.1 (Multiset.mem_map.2 ⟨x, hx, heq⟩)

end Logged

/-! ## The entries of the tables -/

/-- The entries that the routes of a table have in the log. -/
def tabEntries {α : Type} (startSeqno : α → ℕ) (action : SubAction) (tab : RouteVec α) :
    Multiset SubEntry :=
  (FiniteMap.entries tab).map fun e => ⟨startSeqno e.2, e.1.hash, action⟩

def subEntries : RouteVec SubRoute → Multiset SubEntry := tabEntries SubRoute.startSeqno .subJoin

def patEntries : RouteVec PatRoute → Multiset SubEntry := tabEntries PatRoute.startSeqno .psubStart

def queueEntries (tabs : List QueueSubTab) : Multiset SubEntry :=
  (tabs.map fun t => subEntries t.subTab + patEntries t.patTab.tab).sum

/-- One entry per route of `sub_tab`, `pat_tab` and the queue tables, with its
sequence number, hash and action. -/
def SubDB.routeEntries (db : SubDB) : Multiset SubEntry :=
  subEntries db.subTab + patEntries db.patTab.tab + queueEntries db.queueTab

section Tab

variable {α : Type} {startSeqno : α → ℕ} {action : SubAction} {tab : RouteVec α} {key : RouteKey}

theorem tabEntries_insert (v : α) :
    tabEntries startSeqno action (tab.insert key v) =
      ⟨startSeqno v, key.hash, action⟩ ::ₘ tabEntries startSeqno action (tab.erase key) := by
  rw [tabEntries, FiniteMap.entries_insert, Multiset.map_cons]
  rfl

theorem tabEntries_of_lookup {v : α} (h : tab.lookup key = some v) :
    tabEntries startSeqno action tab =
      ⟨startSeqno v, key.hash, action⟩ ::ₘ tabEntries startSeqno action (tab.erase key) := by
  rw [tabEntries, FiniteMap.entries_of_lookup h, Multiset.map_cons]
  rfl

theorem tabEntries_insert_new (h : tab.lookup key = none) (v : α) :
    tabEntries startSeqno action (tab.insert key v) =
      ⟨startSeqno v, key.hash, action⟩ ::ₘ tabEntries startSeqno action tab := by
  rw [tabEntries_insert, tabEntries, FiniteMap.erase_of_lookup_none h]
  rfl

/-- A route whose references change keeps its entry. -/
theorem tabEntries_insert_same {v v' : α} (h : tab.lookup key = some v)
    (hv : startSeqno v' = startSeqno v) :
    tabEntries startSeqno action (tab.insert key v') = tabEntries startSeqno action tab := by
  rw [tabEntries_insert, tabEntries_of_lookup h, hv]

end Tab

/-! ## The operations on a table -/

/-- What a start leaves: a new route has the next sequence number, and the count of
its references is 1, so that it is announced. -/
def Started (n : ℕ) (status : SubStatus) (count : ℕ) (list : SubList)
    (routes : Multiset SubEntry) : Prop :=
  status = .ok ∧ count = 1 ∧ Logged list (n + 1) routes ∨ status ≠ .ok ∧ Logged list n routes

/-- A status that a queue changes is not `SUB_OK`. -/
theorem Started.queue {n count : ℕ} {status : SubStatus} {list : SubList}
    {routes : Multiset SubEntry} (h : Started n status count list routes) :
    Started n (QueueSubArray.queueStatus status) count list routes := by
  have hok : QueueSubArray.queueStatus status = .ok ↔ status = .ok := by
    cases status <;> simp [QueueSubArray.queueStatus]
  simp only [Started, ne_eq, hok] at h ⊢
  exact h

section SubTab

variable {tab : RouteVec SubRoute} {list : SubList} {n : ℕ} {rest : Multiset SubEntry}

theorem SubRoute.add_startSeqno (rt : SubRoute) (ctx : SubArgs) :
    (rt.add ctx).1.startSeqno = rt.startSeqno := by
  rw [SubRoute.add]
  split <;> rfl

theorem SubRoute.rem_startSeqno (rt : SubRoute) (ctx : SubArgs) :
    (rt.rem ctx).1.startSeqno = rt.startSeqno := by
  simp only [SubRoute.rem]
  split
  · rfl
  · split <;> rfl

/-- A start pushes the sequence number of the request for a new route, which is
then announced; else it leaves the log alone. -/
theorem Logged.startSub (h : Logged list n (subEntries tab + rest)) {ctx : SubArgs}
    (hseq : ctx.seqno = n + 1) (hw : tab.lookup ctx.key = none → ¬ list.TailWrapped)
    (mem : SubRefs) :
    let r := SubTab.start tab list ctx mem
    Started n r.2.2.2 r.2.2.1.count.sub r.2.1 (subEntries r.1 + rest) := by
  simp only [SubTab.start]
  split
  · next hnone =>
      refine .inl ⟨rfl, rfl, ?_⟩
      have hpush := h.push (hw hnone) ctx.hash .subJoin
      rw [← Multiset.cons_add] at hpush
      simp only [subEntries]
      rw [tabEntries_insert_new hnone]
      simp only [SubRoute.start, SubArgs.resolveColl, hseq]
      exact hpush
  · next rt hsome =>
      refine .inr ⟨by split <;> simp, ?_⟩
      simp only [subEntries]
      rw [tabEntries_insert_same hsome (SubRoute.add_startSeqno rt _)]
      exact h

/-- A stop pops the sequence number of a route that goes. -/
theorem Logged.stopSub (h : Logged list n (subEntries tab + rest)) (ctx : SubArgs) :
    Logged (SubTab.stop tab list ctx).2.1 n (subEntries (SubTab.stop tab list ctx).1 + rest) := by
  simp only [SubTab.stop]
  split
  · exact h
  · next rt hsome =>
      split
      · simp only [subEntries] at h ⊢
        rw [tabEntries_of_lookup hsome, Multiset.cons_add] at h
        exact h.pop
      · simp only [subEntries]
        rw [tabEntries_insert_same hsome (SubRoute.rem_startSeqno rt _)]
        exact h

end SubTab

section PatTab

variable {kv : Kv} {t : PatTab} {list : SubList} {n : ℕ} {rest : Multiset SubEntry}

theorem PatRoute.add_startSeqno (rt : PatRoute) (ctx : PatternArgs) :
    (rt.add kv ctx).1.startSeqno = rt.startSeqno := by
  simp only [PatRoute.add]
  split <;> rfl

theorem PatRoute.rem_startSeqno (rt : PatRoute) (ctx : PatternArgs) :
    (rt.rem ctx).1.startSeqno = rt.startSeqno := by
  simp only [PatRoute.rem]
  split
  · rfl
  · split <;> rfl

theorem PatRoute.start_eq {ctx ctx' : PatternArgs} {rt : PatRoute}
    (h : PatRoute.start kv ctx = some (rt, ctx')) :
    rt.startSeqno = ctx.seqno ∧ ctx'.seqno = ctx.seqno ∧ ctx'.key = ctx.key ∧
      ctx'.hash = ctx.hash ∧ ctx'.count.sub = 1 := by
  rw [PatRoute.start] at h
  split at h
  · simp at h
  · obtain ⟨rfl, rfl⟩ := Prod.mk.inj (Option.some.inj h)
    exact ⟨rfl, rfl, rfl, rfl, rfl⟩

theorem Logged.startPat (h : Logged list n (patEntries t.tab + rest)) {ctx : PatternArgs}
    (hnew : t.tab.lookup ctx.key = none → kv.compile ctx.pat ctx.cvt ≠ none →
      ctx.seqno = n + 1 ∧ ¬ list.TailWrapped) :
    let r := t.start kv list ctx
    Started n r.2.2.2.1 r.2.2.1.count.sub r.2.1 (patEntries r.1.tab + rest) := by
  simp only [PatTab.start]
  split
  · next hnone =>
      cases hstart : PatRoute.start kv ctx with
      | none => exact .inr ⟨by simp, h⟩
      | some r =>
        obtain ⟨hrt, hseq, hkey, hhash, hcount⟩ := PatRoute.start_eq hstart
        have hcompile : kv.compile ctx.pat ctx.cvt ≠ none := by
          intro hc
          simp [PatRoute.start, hc] at hstart
        obtain ⟨hnext, hw⟩ := hnew hnone hcompile
        refine .inl ⟨rfl, hcount, ?_⟩
        have hpush := h.push hw ctx.hash .psubStart
        rw [← Multiset.cons_add] at hpush
        simp only [patEntries, PatTab.incPref, hkey]
        rw [tabEntries_insert_new hnone, hrt, hseq, hhash, hnext]
        exact hpush
  · next rt hsome =>
      have hsame : patEntries (t.tab.insert ctx.key (rt.add kv ctx).1) = patEntries t.tab :=
        tabEntries_insert_same hsome (PatRoute.add_startSeqno rt ctx)
      split
      · refine .inr ⟨by simp, ?_⟩
        simp only [PatTab.incPref, hsame]
        exact h
      · refine .inr ⟨by simp, ?_⟩
        dsimp only
        split
        · exact h
        · rw [hsame]
          exact h

/-- `PatTab::stop` leaves the entries as they are. -/
theorem patEntries_stop (t : PatTab) (ctx : PatternArgs) :
    patEntries (t.stop ctx).1.tab = patEntries t.tab := by
  simp only [PatTab.stop]
  split
  · rfl
  · next rt hsome => exact tabEntries_insert_same hsome (PatRoute.rem_startSeqno rt ctx)

theorem PatRoute.rem_key (rt : PatRoute) (ctx : PatternArgs) :
    (rt.rem ctx).2.1.key = ctx.key ∧ (rt.rem ctx).2.1.queueHash = ctx.queueHash ∧
      (rt.rem ctx).2.1.queue = ctx.queue := by
  simp only [PatRoute.rem]
  split
  · exact ⟨rfl, rfl, rfl⟩
  · split <;> exact ⟨rfl, rfl, rfl⟩

/-- The route that `PatTab::stop` hands to `remove` is the one of the table. -/
theorem PatTab.lookup_stop {t : PatTab} {ctx : PatternArgs} {rt : PatRoute}
    (h : (t.stop ctx).2.2.2 = some rt) : (t.stop ctx).1.tab.lookup ctx.key = some rt := by
  simp only [PatTab.stop] at h ⊢
  split at h
  · simp at h
  · simp only [PatTab.decPref, AList.lookup_insert]
    exact h

theorem Logged.removePat (h : Logged list n (patEntries t.tab + rest)) {ctx : PatternArgs}
    {rt : PatRoute} (hrt : t.tab.lookup ctx.key = some rt) :
    Logged (t.remove list ctx rt).2 n (patEntries (t.remove list ctx rt).1.tab + rest) := by
  simp only [PatTab.remove, patEntries] at h ⊢
  rw [tabEntries_of_lookup hrt, Multiset.cons_add] at h
  exact h.pop

end PatTab

/-! ## The queue tables -/

section Queue

variable {tabs before after : List QueueSubTab} {t : QueueSubTab} {queue : Subject}
  {queueHash : UInt32}

theorem queueEntries_append (before : List QueueSubTab) (t : QueueSubTab)
    (after : List QueueSubTab) :
    queueEntries (before ++ t :: after) = subEntries t.subTab +
      (patEntries t.patTab.tab + (queueEntries before + queueEntries after)) := by
  simp only [queueEntries, List.map_append, List.sum_append, List.map_cons, List.sum_cons]
  abel

theorem queueEntries_findTab
    (h : QueueSubArray.findTab queue queueHash tabs = some (before, t, after)) :
    queueEntries tabs = queueEntries (before ++ t :: after) :=
  QueueSubArray.sum_findTab _ rfl h

/-- The table that was found is found again, with its routes changed. -/
theorem findTab_again (h : QueueSubArray.findTab queue queueHash tabs = some (before, t, after))
    (t' : QueueSubTab) (hname : t'.queue = t.queue) (hhash : t'.queueHash = t.queueHash) :
    QueueSubArray.findTab queue queueHash (before ++ t' :: after) = some (before, t', after) := by
  have heq : t'.equals queue queueHash = t.equals queue queueHash := by
    simp [QueueSubTab.equals, hname, hhash]
  induction tabs generalizing before with
  | nil =>
    rw [QueueSubArray.findTab] at h
    split at h
    · simp at h
    · obtain ⟨rfl, rfl, rfl⟩ : before = [] ∧ t = .new queue queueHash ∧ after = [] := by
        simpa [eq_comm] using h
      have hfound : t'.equals queue queueHash = true := by
        rw [heq]
        simp [QueueSubTab.equals, QueueSubTab.new]
      simp [QueueSubArray.findTab, hfound]
  | cons x tabs ih =>
    rw [QueueSubArray.findTab] at h
    split at h
    · next hx =>
        obtain ⟨rfl, rfl, rfl⟩ : before = [] ∧ t = x ∧ after = tabs := by
          simpa [eq_comm] using h
        simp [QueueSubArray.findTab, heq, hx]
    · next hx =>
        obtain ⟨r, hr, heq'⟩ := Option.map_eq_some_iff.1 h
        obtain ⟨rfl, hr2⟩ := Prod.mk.inj heq'
        have hih := ih (show _ = some (r.1, t, after) by rw [hr, ← hr2])
        simp [QueueSubArray.findTab, hx, hih]

end Queue

/-! ## The database -/

namespace SubDB

variable {kv : Kv} {db db' : SubDB}

/-- The log of the database is that of its routes. -/
def LogInv (db : SubDB) : Prop := Logged db.subList db.subSeqno db.routeEntries

/-- The tables and the log are the same. -/
structure SameRoutes (db db' : SubDB) : Prop where
  subList : db'.subList = db.subList
  subTab : db'.subTab = db.subTab
  patTab : db'.patTab = db.patTab
  queueTab : db'.queueTab = db.queueTab

theorem SameRoutes.routeEntries (h : SameRoutes db db') : db'.routeEntries = db.routeEntries := by
  simp only [SubDB.routeEntries, h.subTab, h.patTab, h.queueTab]

theorem sameRoutes_updateBloom (kv : Kv) (db : SubDB) (ctx : SubArgs) :
    SameRoutes db (db.updateBloom kv ctx).1 ∧
      (db.updateBloom kv ctx).1.subSeqno = db.subSeqno ∧
      (db.updateBloom kv ctx).2.count = ctx.count := by
  simp only [updateBloom, startBloom, stopBloom]
  split
  · split
    · exact ⟨⟨rfl, rfl, rfl, rfl⟩, rfl, rfl⟩
    · split <;> exact ⟨⟨rfl, rfl, rfl, rfl⟩, rfl, rfl⟩
  · split
    · exact ⟨⟨rfl, rfl, rfl, rfl⟩, rfl, rfl⟩
    · split <;> exact ⟨⟨rfl, rfl, rfl, rfl⟩, rfl, rfl⟩

theorem sameRoutes_updatePatBloom (kv : Kv) (db : SubDB) (ctx : PatternArgs) (rt : PatRoute) :
    SameRoutes db (db.updatePatBloom kv ctx rt).1 ∧
      (db.updatePatBloom kv ctx rt).1.subSeqno = db.subSeqno ∧
      (db.updatePatBloom kv ctx rt).2.count = ctx.count := by
  simp only [updatePatBloom, startPatBloom, stopPatBloom]
  split
  · refine ⟨⟨rfl, rfl, rfl, rfl⟩, rfl, ?_⟩
    split <;> rfl
  · refine ⟨⟨rfl, rfl, rfl, rfl⟩, rfl, ?_⟩
    split <;> rfl

/-- The sequence number has room for one more. -/
def SeqnoFits (db : SubDB) : Prop := db.subSeqno + 1 < 2 ^ 32

instance (db : SubDB) : Decidable db.SeqnoFits := inferInstanceAs (Decidable (_ < _))

theorem nextSeqno_eq (h : db.SeqnoFits) : db.nextSeqno = db.subSeqno + 1 :=
  Nat.mod_eq_of_lt h

/-- The end of `sub_start` and `sub_stop`: a message takes the next sequence
number. -/
theorem finishSub_spec (kv : Kv) (db : SubDB) (ctx : SubArgs) (status : SubStatus) (n : ℕ) :
    let r := db.finishSub kv ctx status n
    SameRoutes db r.db ∧ (r.db.subSeqno = db.subSeqno ∨ r.db.subSeqno = db.nextSeqno) ∧
      (status = .ok → ctx.count.sub = n → r.db.subSeqno = db.nextSeqno) := by
  obtain ⟨hsame, hseq, hcount⟩ := sameRoutes_updateBloom kv db ctx
  have hnext : (db.updateBloom kv ctx).1.nextSeqno = db.nextSeqno := by simp [nextSeqno, hseq]
  simp only [finishSub, hcount]
  split
  · split
    · exact ⟨⟨hsame.1, hsame.2, hsame.3, hsame.4⟩, .inr hnext, fun _ _ => hnext⟩
    · next hne => exact ⟨hsame, .inl hseq, fun _ h => absurd h hne⟩
  · next hne =>
      exact ⟨⟨rfl, rfl, rfl, rfl⟩, .inl rfl, fun h => absurd (.inl h) hne⟩

/-- A start that left the tables logged leaves the database so, once it is
finished. -/
theorem LogInv.of_started {db₁ db₂ : SubDB} {status : SubStatus} {count : ℕ}
    (hfits : db.SeqnoFits)
    (hs : Started db.subSeqno status count db₁.subList db₁.routeEntries)
    (hsame : SameRoutes db₁ db₂)
    (hseq : db₂.subSeqno = db.subSeqno ∨ db₂.subSeqno = db.nextSeqno)
    (hok : status = .ok → count = 1 → db₂.subSeqno = db.nextSeqno) : db₂.LogInv := by
  rw [LogInv, hsame.subList, hsame.routeEntries]
  rcases hs with ⟨hst, hcount, hlog⟩ | ⟨-, hlog⟩
  · rw [hok hst hcount, nextSeqno_eq hfits]
    exact hlog
  · refine hlog.mono ?_
    rcases hseq with h | h
    · exact h.ge
    · rw [h, nextSeqno_eq hfits]
      exact Nat.le_succ _

/-- The routes besides those of `sub_tab`, and besides those of `pat_tab`. -/
theorem routeEntries_eq_sub (db : SubDB) : db.routeEntries =
    subEntries db.subTab + (patEntries db.patTab.tab + queueEntries db.queueTab) :=
  add_assoc _ _ _

theorem routeEntries_eq_pat (db : SubDB) : db.routeEntries =
    patEntries db.patTab.tab + (subEntries db.subTab + queueEntries db.queueTab) := by
  rw [routeEntries]
  abel

/-- The routes besides those of the subjects of a queue. -/
theorem routeEntries_eq_queueSub (db : SubDB) (before : List QueueSubTab) (t : QueueSubTab)
    (after : List QueueSubTab) (h : queueEntries db.queueTab = queueEntries (before ++ t :: after)) :
    db.routeEntries = subEntries t.subTab + (patEntries t.patTab.tab +
      (queueEntries before + queueEntries after) +
      (subEntries db.subTab + patEntries db.patTab.tab)) := by
  rw [routeEntries, h, queueEntries_append]
  abel

/-- The routes besides those of the patterns of a queue. -/
theorem routeEntries_eq_queuePat (db : SubDB) (before : List QueueSubTab) (t : QueueSubTab)
    (after : List QueueSubTab) (h : queueEntries db.queueTab = queueEntries (before ++ t :: after)) :
    db.routeEntries = patEntries t.patTab.tab + (subEntries t.subTab +
      (queueEntries before + queueEntries after) +
      (subEntries db.subTab + patEntries db.patTab.tab)) := by
  rw [routeEntries, h, queueEntries_append]
  abel

/-! ### The four calls -/

/-- The table that a request for a subject goes to; none for a queue without a
name that is not known. -/
def subTabOf (db : SubDB) (ctx : SubArgs) : Option (RouteVec SubRoute) :=
  if ctx.queueHash = 0 then some db.subTab
  else (QueueSubArray.findTab ctx.queue ctx.queueHash db.queueTab).map fun r => r.2.1.subTab

/-- The table that a request for a pattern goes to. -/
def patTabOf (db : SubDB) (ctx : PatternArgs) : Option PatTab :=
  if ctx.queueHash = 0 then some db.patTab
  else (QueueSubArray.findTab ctx.queue ctx.queueHash db.queueTab).map fun r => r.2.1.patTab

theorem LogInv.startSubTab (h : db.LogInv) {ctx : SubArgs} (hseq : ctx.seqno = db.subSeqno + 1)
    (hw : ∀ tab ∈ db.subTabOf ctx, tab.lookup ctx.key = none → ¬ db.subList.TailWrapped)
    (mem : SubRefs) :
    let r := db.startSubTab ctx mem
    Started db.subSeqno r.2.2 r.2.1.count.sub r.1.subList r.1.routeEntries ∧
      r.1.subSeqno = db.subSeqno := by
  simp only [SubDB.startSubTab, subTabOf] at hw ⊢
  split
  · next hq =>
      rw [if_pos hq] at hw
      rw [LogInv, routeEntries_eq_sub] at h
      refine ⟨?_, rfl⟩
      rw [routeEntries_eq_sub]
      exact h.startSub hseq (hw _ rfl) mem
  · next hq =>
      rw [if_neg hq] at hw
      refine ⟨?_, rfl⟩
      simp only [QueueSubArray.startSub]
      cases hf : QueueSubArray.findTab ctx.queue ctx.queueHash db.queueTab with
      | none => exact .inr ⟨by simp, h⟩
      | some r =>
        obtain ⟨before, t, after⟩ := r
        rw [hf] at hw
        rw [LogInv, routeEntries_eq_queueSub db before t after (queueEntries_findTab hf)] at h
        rw [routeEntries_eq_queueSub _ before _ after rfl]
        exact (h.startSub hseq (hw _ rfl) mem).queue

theorem LogInv.subStart (h : db.LogInv) (hfits : db.SeqnoFits) {ctx : SubArgs}
    (hseq : ctx.seqno = db.subSeqno + 1)
    (hw : ∀ tab ∈ db.subTabOf ctx, tab.lookup ctx.key = none → ¬ db.subList.TailWrapped)
    (mem : SubRefs) : (db.subStart kv ctx mem).db.LogInv := by
  obtain ⟨hstart, hseqno⟩ := h.startSubTab hseq hw mem
  obtain ⟨hsame, hor, hok⟩ := finishSub_spec kv (db.startSubTab ctx mem).1
    (db.startSubTab ctx mem).2.1 (db.startSubTab ctx mem).2.2 1
  have hnext : (db.startSubTab ctx mem).1.nextSeqno = db.nextSeqno := by
    simp [nextSeqno, hseqno]
  rw [hseqno, hnext] at hor
  rw [hnext] at hok
  exact LogInv.of_started hfits hstart hsame hor hok

theorem LogInv.stopSubTab (h : db.LogInv) (ctx : SubArgs) :
    Logged (db.stopSubTab ctx).1.subList db.subSeqno (db.stopSubTab ctx).1.routeEntries ∧
      (db.stopSubTab ctx).1.subSeqno = db.subSeqno := by
  simp only [SubDB.stopSubTab]
  split
  · refine ⟨?_, rfl⟩
    rw [LogInv, routeEntries_eq_sub] at h
    rw [routeEntries_eq_sub]
    exact h.stopSub ctx
  · refine ⟨?_, rfl⟩
    simp only [QueueSubArray.stopSub]
    cases hf : QueueSubArray.findTab ctx.queue ctx.queueHash db.queueTab with
    | none => exact h
    | some r =>
      obtain ⟨before, t, after⟩ := r
      rw [LogInv, routeEntries_eq_queueSub db before t after (queueEntries_findTab hf)] at h
      rw [routeEntries_eq_queueSub _ before _ after rfl]
      exact h.stopSub ctx

theorem LogInv.of_logged {db₁ db₂ : SubDB} (hfits : db.SeqnoFits)
    (hlog : Logged db₁.subList db.subSeqno db₁.routeEntries) (hsame : SameRoutes db₁ db₂)
    (hseq : db₂.subSeqno = db.subSeqno ∨ db₂.subSeqno = db.nextSeqno) : db₂.LogInv := by
  have hs : Started db.subSeqno .updated 0 db₁.subList db₁.routeEntries :=
    .inr ⟨by simp, hlog⟩
  refine LogInv.of_started hfits hs hsame hseq fun h => ?_
  cases h

theorem LogInv.subStop (h : db.LogInv) (hfits : db.SeqnoFits) (ctx : SubArgs) :
    (db.subStop kv ctx).db.LogInv := by
  obtain ⟨hlog, hseqno⟩ := h.stopSubTab ctx
  obtain ⟨hsame, hor, -⟩ := finishSub_spec kv (db.stopSubTab ctx).1 (db.stopSubTab ctx).2.1
    (db.stopSubTab ctx).2.2 0
  have hnext : (db.stopSubTab ctx).1.nextSeqno = db.nextSeqno := by simp [nextSeqno, hseqno]
  rw [hseqno, hnext] at hor
  exact LogInv.of_logged hfits hlog hsame hor

theorem LogInv.startPatTab (kv : Kv) (h : db.LogInv) {ctx : PatternArgs}
    (hnew : ∀ t ∈ db.patTabOf ctx, t.tab.lookup ctx.key = none →
      kv.compile ctx.pat ctx.cvt ≠ none → ctx.seqno = db.subSeqno + 1 ∧ ¬ db.subList.TailWrapped) :
    let r := db.startPatTab kv ctx
    Started db.subSeqno r.2.2.1 r.2.1.count.sub r.1.subList r.1.routeEntries ∧
      r.1.subSeqno = db.subSeqno := by
  simp only [SubDB.startPatTab, patTabOf] at hnew ⊢
  split
  · next hq =>
      rw [if_pos hq] at hnew
      rw [LogInv, routeEntries_eq_pat] at h
      refine ⟨?_, rfl⟩
      rw [routeEntries_eq_pat]
      exact h.startPat (hnew _ rfl)
  · next hq =>
      rw [if_neg hq] at hnew
      refine ⟨?_, rfl⟩
      simp only [QueueSubArray.startPat]
      cases hf : QueueSubArray.findTab ctx.queue ctx.queueHash db.queueTab with
      | none => exact .inr ⟨by simp, h⟩
      | some r =>
        obtain ⟨before, t, after⟩ := r
        rw [hf] at hnew
        rw [LogInv, routeEntries_eq_queuePat db before t after (queueEntries_findTab hf)] at h
        rw [routeEntries_eq_queuePat _ before _ after rfl]
        exact (h.startPat (hnew _ rfl)).queue

theorem PatTab.start_ok_isSome (t : PatTab) (list : SubList) (ctx : PatternArgs)
    (h : (t.start kv list ctx).2.2.2.2 = none) : (t.start kv list ctx).2.2.2.1 ≠ .ok := by
  simp only [PatTab.start] at h ⊢
  split
  · cases hstart : PatRoute.start kv ctx with
    | none => simp
    | some r => simp_all
  · split <;> simp

/-- A pattern that was started has a route. -/
theorem startPatTab_ok_isSome (kv : Kv) (db : SubDB) (ctx : PatternArgs)
    (h : (db.startPatTab kv ctx).2.2.2 = none) : (db.startPatTab kv ctx).2.2.1 ≠ .ok := by
  simp only [SubDB.startPatTab] at h ⊢
  split
  · next hq =>
      rw [if_pos hq] at h
      exact PatTab.start_ok_isSome _ _ _ h
  · next hq =>
      rw [if_neg hq] at h
      simp only [QueueSubArray.startPat] at h ⊢
      cases hf : QueueSubArray.findTab ctx.queue ctx.queueHash db.queueTab with
      | none => simp
      | some r =>
        rw [hf] at h
        have hne := PatTab.start_ok_isSome _ _ _ h
        revert hne
        show _ → QueueSubArray.queueStatus (r.2.1.patTab.start kv db.subList ctx).2.2.2.1 ≠ .ok
        cases (r.2.1.patTab.start kv db.subList ctx).2.2.2.1 <;>
          simp [QueueSubArray.queueStatus]

theorem psubStart_spec (kv : Kv) (db : SubDB) (ctx : PatternArgs) :
    let s := db.startPatTab kv ctx
    let r := db.psubStart kv ctx
    SameRoutes s.1 r.db ∧ (r.db.subSeqno = s.1.subSeqno ∨ r.db.subSeqno = s.1.nextSeqno) ∧
      (s.2.2.1 = .ok → s.2.1.count.sub = 1 → r.db.subSeqno = s.1.nextSeqno) := by
  have hsome := startPatTab_ok_isSome kv db ctx
  simp only [psubStart]
  rcases hr : db.startPatTab kv ctx with ⟨db₁, ctx₁, status, rt⟩
  rw [hr] at hsome
  cases rt with
  | none => exact ⟨⟨rfl, rfl, rfl, rfl⟩, .inl rfl, fun h => absurd h (hsome rfl)⟩
  | some rt =>
    obtain ⟨hsame, hseq, hcount⟩ := sameRoutes_updatePatBloom kv db₁ ctx₁ rt
    have hnext : (db₁.updatePatBloom kv ctx₁ rt).1.nextSeqno = db₁.nextSeqno := by
      simp [nextSeqno, hseq]
    simp only [hcount]
    split
    · split
      · exact ⟨⟨hsame.1, hsame.2, hsame.3, hsame.4⟩, .inr hnext, fun _ _ => hnext⟩
      · next hne => exact ⟨hsame, .inl hseq, fun _ h => absurd h hne⟩
    · next hne =>
        exact ⟨⟨rfl, rfl, rfl, rfl⟩, .inl rfl, fun h => absurd (.inl h) hne⟩

theorem LogInv.psubStart (h : db.LogInv) (hfits : db.SeqnoFits) {ctx : PatternArgs}
    (hnew : ∀ t ∈ db.patTabOf ctx, t.tab.lookup ctx.key = none →
      kv.compile ctx.pat ctx.cvt ≠ none → ctx.seqno = db.subSeqno + 1 ∧ ¬ db.subList.TailWrapped) :
    (db.psubStart kv ctx).db.LogInv := by
  obtain ⟨hstart, hseqno⟩ := h.startPatTab kv hnew
  obtain ⟨hsame, hor, hok⟩ := psubStart_spec kv db ctx
  have hnext : (db.startPatTab kv ctx).1.nextSeqno = db.nextSeqno := by
    simp [nextSeqno, hseqno]
  rw [hseqno, hnext] at hor
  rw [hnext] at hok
  exact LogInv.of_started hfits hstart hsame hor hok

/-! ### The end of a pattern -/

theorem PatTab.stop_ctx (t : PatTab) (ctx : PatternArgs) :
    (t.stop ctx).2.1.key = ctx.key ∧ (t.stop ctx).2.1.queueHash = ctx.queueHash ∧
      (t.stop ctx).2.1.queue = ctx.queue := by
  simp only [PatTab.stop]
  split
  · exact ⟨rfl, rfl, rfl⟩
  · exact PatRoute.rem_key _ _

theorem patTabOf_zero {ctx : PatternArgs} (h : ctx.queueHash = 0) :
    db.patTabOf ctx = some db.patTab := if_pos h

theorem patTabOf_found {ctx : PatternArgs} (h : ctx.queueHash ≠ 0)
    {before after : List QueueSubTab} {t : QueueSubTab}
    (hf : QueueSubArray.findTab ctx.queue ctx.queueHash db.queueTab = some (before, t, after)) :
    db.patTabOf ctx = some t.patTab := by
  rw [patTabOf, if_neg h, hf]
  rfl

/-- What `psub_stop` finds: the log and the routes are as they were, and the route
to remove is in the table of the request. -/
theorem stopPatTab_spec (db : SubDB) (ctx : PatternArgs) :
    (db.stopPatTab ctx).1.subList = db.subList ∧
      (db.stopPatTab ctx).1.routeEntries = db.routeEntries ∧
      (db.stopPatTab ctx).1.subSeqno = db.subSeqno ∧
      ∀ rt, (db.stopPatTab ctx).2.2.2 = some rt →
        ∃ t ∈ (db.stopPatTab ctx).1.patTabOf (db.stopPatTab ctx).2.1,
          t.tab.lookup (db.stopPatTab ctx).2.1.key = some rt := by
  by_cases hq : ctx.queueHash = 0
  · obtain ⟨hkey, hhash, hname⟩ := PatTab.stop_ctx db.patTab ctx
    have hstop : db.stopPatTab ctx =
        ({ db with patTab := (db.patTab.stop ctx).1 }, (db.patTab.stop ctx).2) := if_pos hq
    rw [hstop]
    refine ⟨rfl, ?_, rfl, fun rt hrt => ?_⟩
    · rw [routeEntries_eq_pat, routeEntries_eq_pat, patEntries_stop]
    · refine ⟨_, patTabOf_zero (hhash.trans hq), ?_⟩
      rw [hkey]
      exact PatTab.lookup_stop hrt
  · have hstop : db.stopPatTab ctx = ({ db with
        queueTab := (QueueSubArray.stopPat db.queueTab ctx).1 },
        (QueueSubArray.stopPat db.queueTab ctx).2) := if_neg hq
    rw [hstop, QueueSubArray.stopPat]
    cases hf : QueueSubArray.findTab ctx.queue ctx.queueHash db.queueTab with
    | none => exact ⟨rfl, rfl, rfl, fun rt hrt => by simp at hrt⟩
    | some r =>
      obtain ⟨before, t, after⟩ := r
      obtain ⟨hkey, hhash, hname⟩ := PatTab.stop_ctx t.patTab ctx
      refine ⟨rfl, ?_, rfl, fun rt hrt => ?_⟩
      · rw [routeEntries_eq_queuePat db before t after (queueEntries_findTab hf),
          routeEntries_eq_queuePat _ before _ after rfl]
        simp only [patEntries_stop]
      · have hagain := findTab_again hf { t with patTab := (t.patTab.stop ctx).1 } rfl rfl
        have hne : (t.patTab.stop ctx).2.1.queueHash ≠ 0 := by
          rw [hhash]
          exact hq
        rw [← hname, ← hhash] at hagain
        refine ⟨_, patTabOf_found hne hagain, ?_⟩
        show (t.patTab.stop ctx).1.tab.lookup (t.patTab.stop ctx).2.1.key = some rt
        rw [hkey]
        exact PatTab.lookup_stop hrt

theorem Logged.removePatTab {db : SubDB} {n : ℕ}
    (h : Logged db.subList n db.routeEntries) {ctx : PatternArgs} {rt : PatRoute}
    (hrt : ∃ t ∈ db.patTabOf ctx, t.tab.lookup ctx.key = some rt) :
    Logged (db.removePatTab ctx rt).subList n (db.removePatTab ctx rt).routeEntries := by
  simp only [SubDB.removePatTab, patTabOf] at hrt ⊢
  split
  · next hq =>
      obtain ⟨t, ht, hrt⟩ := hrt
      obtain rfl : db.patTab = t := by simpa [hq] using ht
      rw [routeEntries_eq_pat] at h ⊢
      exact h.removePat hrt
  · next hq =>
      obtain ⟨t', ht', hrt⟩ := hrt
      simp only [QueueSubArray.removePat]
      cases hf : QueueSubArray.findTab ctx.queue ctx.queueHash db.queueTab with
      | none => exact h
      | some r =>
        obtain ⟨before, t, after⟩ := r
        obtain rfl : t.patTab = t' := by simpa [hq, hf] using ht'
        rw [routeEntries_eq_queuePat db before t after (queueEntries_findTab hf)] at h
        rw [routeEntries_eq_queuePat _ before _ after rfl]
        exact h.removePat hrt

theorem SameRoutes.patTabOf (h : SameRoutes db db') (ctx : PatternArgs) :
    db'.patTabOf ctx = db.patTabOf ctx := by
  simp only [SubDB.patTabOf, h.patTab, h.queueTab]

theorem removePatTab_subSeqno (db : SubDB) (ctx : PatternArgs) (rt : PatRoute) :
    (db.removePatTab ctx rt).subSeqno = db.subSeqno := by
  simp only [SubDB.removePatTab]
  split <;> rfl

theorem LogInv.psubStop (h : db.LogInv) (hfits : db.SeqnoFits) (ctx : PatternArgs) :
    (db.psubStop kv ctx).db.LogInv := by
  obtain ⟨hlist, hroutes, hseqno, hlookup⟩ := stopPatTab_spec db ctx
  have hlog : Logged (db.stopPatTab ctx).1.subList db.subSeqno
      (db.stopPatTab ctx).1.routeEntries := by
    rw [hlist, hroutes]
    exact h
  simp only [SubDB.psubStop]
  rcases hr : db.stopPatTab ctx with ⟨db₁, ctx₁, status, rt⟩
  rw [hr] at hseqno hlookup hlog
  cases rt with
  | none => exact LogInv.of_logged hfits hlog ⟨rfl, rfl, rfl, rfl⟩ (.inl hseqno)
  | some rt =>
    obtain ⟨hsame, hseq, hcount⟩ := sameRoutes_updatePatBloom kv db₁ ctx₁ rt
    -- the database after the message, before the route is removed
    obtain ⟨db₂, hdb₂⟩ : ∃ db₂, db₂ = if (db₁.updatePatBloom kv ctx₁ rt).2.count.sub = 0 then
        ((db₁.updatePatBloom kv ctx₁ rt).1.fwdPsub (db₁.updatePatBloom kv ctx₁ rt).2).1
      else (db₁.updatePatBloom kv ctx₁ rt).1 := ⟨_, rfl⟩
    have hsame₂ : SameRoutes db₁ db₂ := by
      rw [hdb₂]
      split
      · exact ⟨hsame.1, hsame.2, hsame.3, hsame.4⟩
      · exact hsame
    have hseq₂ : db₂.subSeqno = db.subSeqno ∨ db₂.subSeqno = db.nextSeqno := by
      rw [hdb₂]
      split
      · right
        simp only [fwdPsub, nextSeqno, hseq]
        rw [hseqno]
      · exact .inl (hseq.trans hseqno)
    simp only [← hdb₂]
    have hlog₂ : Logged db₂.subList db.subSeqno db₂.routeEntries := by
      rw [hsame₂.subList, hsame₂.routeEntries]
      exact hlog
    split
    · have hrt : ∃ t ∈ db₂.patTabOf ctx₁, t.tab.lookup ctx₁.key = some rt := by
        rw [hsame₂.patTabOf]
        exact hlookup rt rfl
      refine LogInv.of_logged hfits (Logged.removePatTab hlog₂ hrt) ⟨rfl, rfl, rfl, rfl⟩ ?_
      rw [removePatTab_subSeqno]
      exact hseq₂
    · exact LogInv.of_logged hfits hlog₂ ⟨rfl, rfl, rfl, rfl⟩ hseq₂

/-! ## Runs -/

/-- The call makes a new route. -/
def StartsRoute (kv : Kv) (db : SubDB) : Call → Prop
  | .subStart ctx _ => ∃ tab ∈ db.subTabOf ctx, tab.lookup ctx.key = none
  | .psubStart ctx =>
    (∃ t ∈ db.patTabOf ctx, t.tab.lookup ctx.key = none) ∧ kv.compile ctx.pat ctx.cvt ≠ none
  | _ => False

def Event.isQueuePsub : Event → Bool
  | .queuePsubUpdate .. => true
  | _ => false

/-- A step that numbers its route. A pattern of a queue gets no number, the 32 bits
of the sequence number must not wrap, and the log must not write behind an array
whose `count` wrapped. -/
structure KeepsLog (kv : Kv) (db : SubDB) (e : Event) : Prop where
  fits : db.SeqnoFits
  numbered : StartsRoute kv db (db.call kv e) → e.isQueuePsub = false
  room : StartsRoute kv db (db.call kv e) → ¬ db.subList.TailWrapped

theorem LogInv.call_subStart (h : db.LogInv) (hfits : db.SeqnoFits) {ctx : SubArgs} {mem : SubRefs}
    (hseq : ctx.seqno = db.subSeqno + 1)
    (hroom : StartsRoute kv db (.subStart ctx mem) → ¬ db.subList.TailWrapped) :
    (db.runCall kv (.subStart ctx mem)).db.LogInv :=
  h.subStart hfits hseq (fun tab ht hnone => hroom ⟨tab, ht, hnone⟩) mem

theorem LogInv.call_psubStart (h : db.LogInv) (hfits : db.SeqnoFits) {ctx : PatternArgs}
    (hseq : StartsRoute kv db (.psubStart ctx) → ctx.seqno = db.subSeqno + 1)
    (hroom : StartsRoute kv db (.psubStart ctx) → ¬ db.subList.TailWrapped) :
    (db.runCall kv (.psubStart ctx)).db.LogInv :=
  h.psubStart hfits fun t ht hnone hc =>
    ⟨hseq ⟨⟨t, ht, hnone⟩, hc⟩, hroom ⟨⟨t, ht, hnone⟩, hc⟩⟩

theorem LogInv.step (h : db.LogInv) {e : Event} (hk : KeepsLog kv db e) :
    (db.step kv e).LogInv := by
  have hroom := hk.room
  have hnum := hk.numbered
  rw [SubDB.step]
  cases e with
  | consoleSubStart sub cb mem => exact h.call_subStart hk.fits rfl hroom
  | consoleSubStop sub => exact h.subStop hk.fits _
  | ipcSubStart sub hash tportId mem => exact h.call_subStart hk.fits rfl hroom
  | ipcSubStop sub hash tportId => exact h.subStop hk.fits _
  | queueSubUpdate sub hash tportId queue queueHash subCount mem =>
    by_cases hcount : subCount ≠ 0
    · simp only [call, if_pos hcount] at hroom ⊢
      exact h.call_subStart hk.fits rfl hroom
    · simp only [call, if_neg hcount]
      exact h.subStop hk.fits _
  | consolePsubStart pat fmt cb =>
    simp only [call] at hroom ⊢
    cases hc : kv.convert pat fmt with
    | none => exact h
    | some cvt =>
      rw [hc] at hroom
      exact h.call_psubStart hk.fits (fun _ => rfl) hroom
  | consolePsubStop pat fmt =>
    simp only [call]
    cases kv.convert pat fmt with
    | none => exact h
    | some cvt => exact h.psubStop hk.fits _
  | ipcPsubStart pat cvt hash tportId => exact h.call_psubStart hk.fits (fun _ => rfl) hroom
  | ipcPsubStop pat cvt hash tportId => exact h.psubStop hk.fits _
  | queuePsubUpdate pat cvt hash tportId queue queueHash subCount =>
    by_cases hcount : subCount ≠ 0
    · simp only [call, if_pos hcount] at hroom hnum ⊢
      exact h.call_psubStart hk.fits (fun hs => absurd (hnum hs) (by simp [Event.isQueuePsub]))
        hroom
    · simp only [call, if_neg hcount]
      exact h.psubStop hk.fits _
  | resizeBloom bloom console ipc => exact h

/-- **The log has one entry per route**, with its sequence number, hash and action,
in every state of every run whose steps keep it, and the sequence numbers pushed
are not 0 and ascend. -/
theorem log_one_entry_per_route (kv : Kv) {ibxLen mchLen : ℕ} {ibxHash mchHash : UInt32}
    (h : Run.Reach (step kv) (KeepsLog kv) (init ibxLen ibxHash mchLen mchHash) db) :
    (db.subList.entries : Multiset SubEntry) = db.routeEntries ∧
      (∀ x ∈ db.subList.pushed, x ≠ 0) ∧ db.subList.pushed.Pairwise (· < ·) := by
  have hstart : (init ibxLen ibxHash mchLen mchHash).LogInv := Logged.empty
  have hinv : db.LogInv := h.invariant hstart fun s e hs hk => hs.step hk
  exact ⟨hinv.entries_eq, fun x hx => (hinv.pushed x hx).1, hinv.ascending⟩

/-- Two subjects and a pattern are started, and one of the subjects is stopped. -/
theorem log_one_entry_per_route_threeStarts :
    let db := [.ipcSubStart [65] 7 0 ∅, .ipcSubStart [66] 8 0 ∅, .ipcPsubStart [65, 46, 62] ⟨0, 2⟩ 9 1,
      .ipcSubStop [65] 7 0].foldl (step prefixKv) (init 10 1 11 2)
    (db.subList.entries : Multiset SubEntry) = db.routeEntries ∧
      (∀ x ∈ db.subList.pushed, x ≠ 0) ∧ db.subList.pushed.Pairwise (· < ·) := by
  refine log_one_entry_per_route prefixKv (Run.Reach.foldl .start ⟨?_, ?_, ?_, ?_, trivial⟩)
  all_goals exact ⟨by decide, fun _ => rfl, fun _ => by decide⟩

/-- The pattern of a queue is pushed with sequence number 0. -/
theorem queue_pattern_pushes_zero :
    let db := (init 10 1 11 2).step prefixKv (.queuePsubUpdate [65, 46, 62] ⟨0, 2⟩ 9 0 [81] 5 1)
    db.subList.pushed = [0] ∧ db.subList.entries = [] ∧ db.routeEntries = {⟨0, 9, .psubStart⟩} ∧
      ¬ ((db.subList.entries : Multiset SubEntry) = db.routeEntries ∧
        (∀ x ∈ db.subList.pushed, x ≠ 0) ∧ db.subList.pushed.Pairwise (· < ·)) := by
  decide

end SubDB

end Raims
