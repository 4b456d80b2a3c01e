import Raims.Sub.SubBloom

/-!
# Stops without a reference

`rem` of an owner that has no reference leaves the counts of the request at 0, and
the request goes on as an update. To what follows a count of 0 is the end of the
subject or pattern: the filters are deleted from and a leave is sent, while the
route and its references stay.
-/

namespace Raims

namespace SubDB

variable {kv : Kv} {db : SubDB}

/-- The stop of an owner that has no reference, where others have one. -/
def StopsUnheld (db : SubDB) : Call → Prop
  | .subStop ctx =>
    ∃ tab ∈ db.subTabOf ctx, ∃ rt, tab.lookup ctx.key = some rt ∧ rt.ref ≠ ∅ ∧
      SubRefs.bit ctx.owner ∉ rt.ref
  | .psubStop ctx =>
    ∃ t ∈ db.patTabOf ctx, ∃ rt, t.tab.lookup ctx.key = some rt ∧ rt.ref ≠ ∅ ∧
      SubRefs.bit ctx.owner ∉ rt.ref
  | _ => False

/-- The counts of references by prefix length, of `pat_tab` and of the queues. -/
def prefCounts (db : SubDB) : List (ℕ → ℕ) :=
  db.patTab.prefCount :: db.queueTab.map fun t => t.patTab.prefCount

/-- Nothing has changed, and nothing was sent. -/
structure Unchanged (db : SubDB) (r : Result) : Prop where
  blooms : ∀ k, r.db.bloomOf k = db.bloomOf k
  prefCounts : r.db.prefCounts = db.prefCounts
  subSeqno : r.db.subSeqno = db.subSeqno
  subList : r.db.subList = db.subList
  routeEntries : r.db.routeEntries = db.routeEntries
  routeRefs : r.db.routeRefs = db.routeRefs
  sent : r.sent = none

/-- The request was taken for the end of its subject or pattern. -/
structure Leaves (db : SubDB) (r : Result) : Prop where
  sent : ∃ m, r.sent = some m ∧ m.isStart = false ∧ m.seqno = db.nextSeqno
  subSeqno : r.db.subSeqno = db.nextSeqno
  routeRefs : r.db.routeRefs = db.routeRefs

theorem Leaves.not_unchanged {r : Result} (h : Leaves db r) : ¬ Unchanged db r := by
  intro hsame
  obtain ⟨m, hsent, -⟩ := h.sent
  rw [hsame.sent] at hsent
  cases hsent

/-! ## Subjects -/

theorem tabRefs_insert_same {α : Type} {ref : α → SubRefs} {tab : RouteVec α} {key : RouteKey}
    {rt : α} (h : tab.lookup key = some rt) :
    tabRefs ref (tab.insert key rt) = tabRefs ref tab := by
  rw [tabRefs, FiniteMap.entries_insert, ← FiniteMap.entries_of_lookup h, tabRefs]

theorem updateBloom_isStart (kv : Kv) (db : SubDB) (ctx : SubArgs) :
    (db.updateBloom kv ctx).2.isStart = ctx.isStart := by
  simp only [updateBloom, startBloom, stopBloom]
  split_ifs <;> rfl

/-- An update whose count is that of a leave. -/
theorem leaves_finishSub {db₁ : SubDB} {ctx : SubArgs} (hcount : ctx.count.sub = 0)
    (hstart : ctx.isStart = false) (hseq : db₁.subSeqno = db.subSeqno)
    (hrefs : db₁.routeRefs = db.routeRefs) : Leaves db (db₁.finishSub kv ctx .updated 0) := by
  obtain ⟨hsame, hsub, hc⟩ := sameRoutes_updateBloom kv db₁ ctx
  have hnext : (db₁.updateBloom kv ctx).1.nextSeqno = db.nextSeqno := by
    simp [nextSeqno, hsub, hseq]
  have hzero : (db₁.updateBloom kv ctx).2.count.sub = 0 := by rw [hc, hcount]
  have hrefs' := (finishSub_routeRefs kv db₁ ctx .updated 0).trans hrefs
  rw [finishSub, if_pos (.inr rfl)] at hrefs' ⊢
  dsimp only at hrefs' ⊢
  rw [if_pos hzero] at hrefs' ⊢
  rw [if_pos hzero]
  refine ⟨⟨_, rfl, ?_, hnext⟩, hnext, hrefs'⟩
  exact (updateBloom_isStart kv db₁ ctx).trans hstart

theorem leaves_subStop (kv : Kv) {ctx : SubArgs} (hf : ctx.Fresh false)
    (h : StopsUnheld db (.subStop ctx)) : Leaves db (db.subStop kv ctx) := by
  obtain ⟨tab, htab, rt, hlook, -, hbit⟩ := h
  obtain ⟨hstart, hcount, -⟩ := hf
  have hzero (refs : SubRefs) (n : ℕ) : (ctx.resolveColl refs n).count.sub = 0 := by
    rw [SubArgs.resolveColl, hcount]
  rw [subStop]
  by_cases hq : ctx.queueHash = 0
  · obtain rfl : db.subTab = tab := Option.some.inj ((if_pos hq).symm.trans htab)
    rw [stopSubTab_plain hq, SubTab.stop_absent _ hlook hbit]
    refine leaves_finishSub (hzero _ _) hstart rfl ?_
    rw [routeRefs_eq_sub, routeRefs_eq_sub, tabRefs_insert_same hlook]
  · cases hfind : QueueSubArray.findTab ctx.queue ctx.queueHash db.queueTab with
    | none => simp [subTabOf, hq, hfind] at htab
    | some r =>
      obtain ⟨before, t, after⟩ := r
      obtain rfl : t.subTab = tab := Option.some.inj ((subTabOf_found hq hfind).symm.trans htab)
      rw [stopSubTab_queue hq hfind, SubTab.stop_absent _ hlook hbit]
      refine leaves_finishSub (hzero _ _) hstart rfl ?_
      rw [routeRefs_eq_queueSub db before t after (queueRefs_findTab hfind),
        ← tabRefs_insert_same hlook]
      exact routeRefs_eq_queueSub _ before { t with subTab := _ } after rfl

/-! ## Patterns -/

theorem updatePatBloom_isStart (kv : Kv) (db : SubDB) (ctx : PatternArgs) (rt : PatRoute) :
    (db.updatePatBloom kv ctx rt).2.isStart = ctx.isStart := by
  simp only [updatePatBloom, startPatBloom, stopPatBloom]
  split_ifs <;> rfl

theorem leaves_psubStop_updated {db₁ : SubDB} {ctx ctx₁ : PatternArgs} {rt : PatRoute}
    (hstop : db.stopPatTab ctx = (db₁, ctx₁, .updated, some rt)) (hcount : ctx₁.count.sub = 0)
    (hstart : ctx₁.isStart = false) (hseq : db₁.subSeqno = db.subSeqno)
    (hrefs : db₁.routeRefs = db.routeRefs) : Leaves db (db.psubStop kv ctx) := by
  obtain ⟨hsame, hsub, hc⟩ := sameRoutes_updatePatBloom kv db₁ ctx₁ rt
  have hnext : (db₁.updatePatBloom kv ctx₁ rt).1.nextSeqno = db.nextSeqno := by
    simp [nextSeqno, hsub, hseq]
  have hzero : (db₁.updatePatBloom kv ctx₁ rt).2.count.sub = 0 := by rw [hc, hcount]
  rw [psubStop, hstop]
  dsimp only
  rw [if_pos hzero, if_pos hzero, if_neg (by simp)]
  refine ⟨⟨_, rfl, ?_, hnext⟩, hnext, ?_⟩
  · exact (updatePatBloom_isStart kv db₁ ctx₁ rt).trans hstart
  · exact hsame.routeRefs.trans hrefs

/-- The table after a stop by an owner that has no reference: its route stays, and the count
of its prefix is lowered. -/
def loweredTab (t : PatTab) (ctx : PatternArgs) (rt : PatRoute) : PatTab :=
  PatTab.decPref { t with tab := t.tab.insert ctx.key rt } (PatTab.preflen ctx)

/-- The table of a pattern that its owner has no reference to is `pat_tab` or that of a
queue. -/
theorem stopPatTab_unheld {ctx : PatternArgs} (h : StopsUnheld db (.psubStop ctx)) :
    (∃ rt, db.patTab.tab.lookup ctx.key = some rt ∧
      db.stopPatTab ctx =
        ({ db with patTab := loweredTab db.patTab ctx rt }, ctx, .updated, some rt)) ∨
    ∃ before tq after rt, tq.patTab.tab.lookup ctx.key = some rt ∧
      QueueSubArray.findTab ctx.queue ctx.queueHash db.queueTab = some (before, tq, after) ∧
      db.stopPatTab ctx =
        ({ db with
            queueTab := before ++ { tq with patTab := loweredTab tq.patTab ctx rt } :: after },
          ctx, .updated, some rt) := by
  obtain ⟨t, ht, rt, hlook, -, hbit⟩ := h
  by_cases hq : ctx.queueHash = 0
  · obtain rfl : db.patTab = t := Option.some.inj ((patTabOf_zero hq).symm.trans ht)
    have hstop := stopPatTab_plain db hq
    rw [PatTab.stop_absent hlook hbit] at hstop
    exact .inl ⟨rt, hlook, hstop⟩
  · cases hfind : QueueSubArray.findTab ctx.queue ctx.queueHash db.queueTab with
    | none => simp [patTabOf, hq, hfind] at ht
    | some r =>
      obtain ⟨before, tq, after⟩ := r
      obtain rfl : tq.patTab = t := Option.some.inj ((patTabOf_found hq hfind).symm.trans ht)
      have hstop := stopPatTab_queue hq hfind
      rw [PatTab.stop_absent hlook hbit] at hstop
      exact .inr ⟨before, tq, after, rt, hlook, rfl, hstop⟩

theorem leaves_psubStop (kv : Kv) {ctx : PatternArgs} (hf : ctx.Fresh false)
    (h : StopsUnheld db (.psubStop ctx)) : Leaves db (db.psubStop kv ctx) := by
  obtain ⟨hstart, hcount⟩ := hf
  have hzero : ctx.count.sub = 0 := by rw [hcount]
  rcases stopPatTab_unheld h with ⟨rt, hlook, hstop⟩ | ⟨before, tq, after, rt, hlook, hfind, hstop⟩
  · refine leaves_psubStop_updated hstop hzero hstart rfl ?_
    rw [routeRefs_eq_pat, routeRefs_eq_pat, ← tabRefs_insert_same hlook]
    rfl
  · refine leaves_psubStop_updated hstop hzero hstart rfl ?_
    rw [routeRefs_eq_queuePat db before tq after (queueRefs_findTab hfind),
      ← tabRefs_insert_same hlook]
    exact routeRefs_eq_queuePat _ before { tq with patTab := loweredTab tq.patTab ctx rt } after rfl

theorem PatTab.decPref_ne (t : PatTab) (n : ℕ) : (t.decPref n).prefCount ≠ t.prefCount := by
  intro h
  have hn := congrFun h n
  simp only [PatTab.decPref, Function.update_self] at hn
  omega

theorem findTab_eq {queue : Subject} {queueHash : UInt32} {t : QueueSubTab}
    {tabs before after : List QueueSubTab}
    (h : QueueSubArray.findTab queue queueHash tabs = some (before, t, after)) :
    tabs = before ++ t :: after ∨ t = .new queue queueHash := by
  induction tabs generalizing before with
  | nil =>
    rw [QueueSubArray.findTab] at h
    split at h
    · cases h
    · cases h
      exact .inr rfl
  | cons x tabs ih =>
    rw [QueueSubArray.findTab] at h
    split at h
    · cases h
      exact .inl rfl
    · obtain ⟨r, hr, heq⟩ := Option.map_eq_some_iff.1 h
      obtain ⟨rfl, hr2⟩ := Prod.mk.inj heq
      refine (ih (show _ = some (r.1, t, after) by rw [hr, ← hr2])).imp_left fun htabs => ?_
      rw [htabs, List.cons_append]

theorem psubStop_prefCounts {db₁ : SubDB} {ctx ctx₁ : PatternArgs} {rt : PatRoute}
    (hstop : db.stopPatTab ctx = (db₁, ctx₁, .updated, some rt)) :
    (db.psubStop kv ctx).db.prefCounts = db₁.prefCounts := by
  obtain ⟨db₂, hdb, -, hsame, -⟩ := psubStop_eq kv hstop
  rw [hdb, if_neg (by simp), prefCounts, prefCounts, hsame.patTab, hsame.queueTab]

/-- The count of the prefix is lowered too. -/
theorem psubStop_lowers_prefCounts {ctx : PatternArgs} (h : StopsUnheld db (.psubStop ctx)) :
    (db.psubStop kv ctx).db.prefCounts ≠ db.prefCounts := by
  rcases stopPatTab_unheld h with ⟨rt, -, hstop⟩ | ⟨before, tq, after, rt, hlook, hfind, hstop⟩
  · rw [psubStop_prefCounts hstop]
    intro heq
    exact PatTab.decPref_ne _ _ (List.cons.inj heq).1
  · rw [psubStop_prefCounts hstop]
    -- a table with a route is not new
    have htabs : db.queueTab = before ++ tq :: after := by
      refine (findTab_eq hfind).resolve_right fun hnew => ?_
      rw [hnew] at hlook
      cases hlook
    intro heq
    have htail := (List.cons.inj heq).2
    simp only [htabs, List.map_append, List.map_cons, List.append_cancel_left_eq,
      List.cons.injEq] at htail
    exact PatTab.decPref_ne _ _ htail.1

def Call.isPattern : Call → Bool
  | .psubStart _ => true
  | .psubStop _ => true
  | _ => false

/-- **A stop without a reference is never ignored.** In every state, the stop of a
subject or pattern by an owner that has no reference to it, while others have one,
sends a leave with the next sequence number, though the references stay, and that of
a pattern lowers the count of its prefix. -/
theorem stop_unheld_never_ignored (kv : Kv) (db : SubDB) (e : Event)
    (h : StopsUnheld db (db.call kv e)) :
    let r := db.runCall kv (db.call kv e)
    ¬ Unchanged db r ∧ Leaves db r ∧
      ((db.call kv e).isPattern = true → r.db.prefCounts ≠ db.prefCounts) := by
  have hfresh := call_fresh kv db e
  cases hc : db.call kv e with
  | subStop ctx =>
    rw [hc] at h hfresh
    have hleaves := leaves_subStop kv hfresh h
    exact ⟨hleaves.not_unchanged, hleaves, fun hp => by cases hp⟩
  | psubStop ctx =>
    rw [hc] at h hfresh
    have hleaves := leaves_psubStop kv hfresh h
    exact ⟨hleaves.not_unchanged, hleaves, fun _ => psubStop_lowers_prefCounts h⟩
  | subStart ctx mem =>
    rw [hc] at h
    exact h.elim
  | psubStart ctx =>
    rw [hc] at h
    exact h.elim
  | resizeBloom bloom console ipc =>
    rw [hc] at h
    exact h.elim
  | none =>
    rw [hc] at h
    exact h.elim

/-- A transport has a pattern, and the console stops it. -/
theorem stop_unheld_never_ignored_pattern :
    let db := (init 10 1 11 2).step prefixKv (.ipcPsubStart [65, 46, 62] ⟨0, 2⟩ 2 0)
    let r := db.runCall prefixKv (db.call prefixKv (.consolePsubStop [65, 46, 62] 0))
    ¬ Unchanged db r ∧ Leaves db r ∧
      ((db.call prefixKv (.consolePsubStop [65, 46, 62] 0)).isPattern = true →
        r.db.prefCounts ≠ db.prefCounts) := by
  refine stop_unheld_never_ignored prefixKv _ _ ?_
  exact ⟨_, rfl, _, rfl, by decide, by decide⟩

/-- A transport has a subject, and the console stops it: a leave is sent, and the
subject is gone from the filter, while its route is there. -/
theorem console_stops_ipc_subject :
    let db := (init 10 3 11 4).step prefixKv (.ipcSubStart [65] 0 0 ∅)
    let r := db.runCall prefixKv (db.call prefixKv (.consoleSubStop [65]))
    StopsUnheld db (db.call prefixKv (.consoleSubStop [65])) ∧ r.sent.isSome = true ∧
      r.db.subSeqno = 2 ∧ db.subSeqno = 1 ∧ 1 ∈ db.bloom.bits ∧ 1 ∉ r.db.bloom.bits ∧
      r.db.routeRefs = {(1, {1})} ∧ ¬ Unchanged db r := by
  intro db r
  have hsent : r.sent.isSome = true := by decide
  refine ⟨⟨_, rfl, _, rfl, by decide, by decide⟩, hsent, by decide, by decide, by decide,
    by decide, by decide, fun h => ?_⟩
  rw [h.sent] at hsent
  cases hsent

end SubDB

end Raims
