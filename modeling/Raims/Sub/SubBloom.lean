import Raims.Sub.SubLog

/-!
# The blooms and the routes

Three counting filters say which hashes this node is subscribed to: for any
subscriber, for the console and for the ipc transports. `update_bloom` follows the
references of a route from the counts before and after; `index_bloom` rebuilds a
filter from the tables. A step is sound if it changes a filter exactly when the
first reference of its kind comes or the last one goes; then each filter always is
what the rebuild gives.
-/

namespace Raims

/-! ## The three filters -/

inductive BloomKind where
  | shared | console | ipc
deriving DecidableEq

namespace BloomKind

/-- The flags of a filter: `CONSOLE_SUB` and `IPC_SUB`. -/
def flags : BloomKind → Bool × Bool
  | shared => (true, true)
  | console => (true, false)
  | ipc => (false, true)

/-- The references count for the filter. -/
def test (k : BloomKind) (refs : SubRefs) : Bool := SubDB.testRefs k.flags.1 k.flags.2 refs

theorem test_shared {refs : SubRefs} : shared.test refs = true ↔ refs ≠ ∅ := by
  by_cases h0 : 0 ∈ refs
  · have hne : refs ≠ ∅ := Finset.ne_empty_of_mem h0
    simp [test, flags, SubDB.testRefs, SubRefs.hasConsole, h0, hne]
  · simp [test, flags, SubDB.testRefs, SubRefs.hasConsole, SubRefs.hasIpc, h0]

theorem test_console {refs : SubRefs} : console.test refs = true ↔ 0 ∈ refs := by
  simp [test, flags, SubDB.testRefs, SubRefs.hasConsole]

theorem test_ipc {refs : SubRefs} : ipc.test refs = true ↔ refs.erase 0 ≠ ∅ := by
  simp [test, flags, SubDB.testRefs, SubRefs.hasIpc]

theorem test_empty (k : BloomKind) : k.test ∅ = false := by
  cases k <;> rfl

end BloomKind

namespace SubDB

/-- The filter of a kind. -/
def bloomOf (db : SubDB) : BloomKind → BloomRef
  | .shared => db.bloom
  | .console => db.console
  | .ipc => db.ipc

/-- What `index_bloom` gives for a kind. -/
def indexOf (db : SubDB) (k : BloomKind) : Multiset UInt32 := db.indexBloom k.flags.1 k.flags.2

end SubDB

/-! ## The references of the routes -/

/-- The hash and the references of every route of a table. -/
def tabRefs {α : Type} (ref : α → SubRefs) (tab : RouteVec α) : Multiset (UInt32 × SubRefs) :=
  (FiniteMap.entries tab).map fun e => (e.1.hash, ref e.2)

def queueRefs (tabs : List QueueSubTab) : Multiset (UInt32 × SubRefs) :=
  (tabs.map fun t => tabRefs SubRoute.ref t.subTab + tabRefs PatRoute.ref t.patTab.tab).sum

/-- The hash and the references of every route of `sub_tab`, `pat_tab` and the queue
tables. -/
def SubDB.routeRefs (db : SubDB) : Multiset (UInt32 × SubRefs) :=
  tabRefs SubRoute.ref db.subTab + tabRefs PatRoute.ref db.patTab.tab + queueRefs db.queueTab

/-- The hashes of the routes that count for a filter. -/
def BloomKind.hashes (k : BloomKind) (routes : Multiset (UInt32 × SubRefs)) : Multiset UInt32 :=
  (routes.filter fun e => k.test e.2).map Prod.fst

/-- The hashes that are in a filter whatever the routes are. -/
def SubDB.baseHashes (db : SubDB) : BloomKind → Multiset UInt32
  | .shared => {db.ibxHash, db.mchHash}
  | _ => 0

theorem BloomKind.hashes_add (k : BloomKind) (r₁ r₂ : Multiset (UInt32 × SubRefs)) :
    k.hashes (r₁ + r₂) = k.hashes r₁ + k.hashes r₂ := by
  simp [hashes]

theorem hashes_tabRefs {α : Type} (ref : α → SubRefs) (k : BloomKind) (tab : RouteVec α) :
    k.hashes (tabRefs ref tab) = SubDB.indexTab ref k.flags.1 k.flags.2 tab := by
  rw [BloomKind.hashes, tabRefs, Multiset.filter_map, Multiset.map_map]
  rfl

theorem hashes_queueRefs (k : BloomKind) (tabs : List QueueSubTab) :
    k.hashes (queueRefs tabs) = (tabs.map fun t => k.hashes (tabRefs SubRoute.ref t.subTab) +
      k.hashes (tabRefs PatRoute.ref t.patTab.tab)).sum := by
  induction tabs with
  | nil => rfl
  | cons t tabs ih =>
    have hcons : queueRefs (t :: tabs) =
        tabRefs SubRoute.ref t.subTab + tabRefs PatRoute.ref t.patTab.tab + queueRefs tabs := by
      simp [queueRefs]
    rw [hcons, BloomKind.hashes_add, BloomKind.hashes_add, ih, List.map_cons, List.sum_cons]

/-- `index_bloom` adds the hash of every route with a reference that counts. -/
theorem SubDB.indexOf_eq (db : SubDB) (k : BloomKind) :
    db.indexOf k = db.baseHashes k + k.hashes db.routeRefs := by
  have hbase : (if k.flags.1 && k.flags.2 then {db.ibxHash, db.mchHash} else 0) =
      db.baseHashes k := by
    cases k <;> rfl
  rw [routeRefs, BloomKind.hashes_add, BloomKind.hashes_add, hashes_queueRefs, indexOf, indexBloom,
    hbase]
  simp only [hashes_tabRefs, add_assoc]

/-- The references of the route of a key, none if there is no route. -/
def refsOf {α : Type} (ref : α → SubRefs) (tab : RouteVec α) (key : RouteKey) : SubRefs :=
  (tab.lookup key).elim ∅ ref

section Table

variable {α : Type} {ref : α → SubRefs} {tab : RouteVec α} {key : RouteKey}

theorem refsOf_some {rt : α} (h : tab.lookup key = some rt) : refsOf ref tab key = ref rt := by
  simp [refsOf, h]

theorem refsOf_none (h : tab.lookup key = none) : refsOf ref tab key = ∅ := by
  simp [refsOf, h]

theorem refsOf_insert (rt : α) : refsOf ref (tab.insert key rt) key = ref rt := by
  simp [refsOf]

theorem refsOf_erase : refsOf ref (tab.erase key) key = ∅ := by
  simp [refsOf]

theorem hashes_split (ref : α → SubRefs) (k : BloomKind) (tab : RouteVec α) (key : RouteKey) :
    k.hashes (tabRefs ref tab) =
      (if k.test (refsOf ref tab key) then {key.hash} else 0) +
        k.hashes (tabRefs ref (tab.erase key)) := by
  cases h : tab.lookup key with
  | none =>
    simp [refsOf_none h, BloomKind.test_empty, tabRefs, FiniteMap.erase_of_lookup_none h]
  | some rt =>
    rw [refsOf_some h, tabRefs, FiniteMap.entries_of_lookup h, Multiset.map_cons]
    by_cases ht : k.test (ref rt) = true
    · simp [BloomKind.hashes, tabRefs, ht]
    · simp [BloomKind.hashes, tabRefs, ht]

theorem erase_insert_entries (rt : α) :
    FiniteMap.entries ((tab.insert key rt).erase key) = FiniteMap.entries (tab.erase key) := by
  have h := FiniteMap.entries_of_lookup (AList.lookup_insert (a := key) (b := rt) tab)
  rw [FiniteMap.entries_insert] at h
  exact (Multiset.cons_inj_right _).1 h.symm

theorem erase_erase_entries :
    FiniteMap.entries ((tab.erase key).erase key) = FiniteMap.entries (tab.erase key) :=
  FiniteMap.erase_of_lookup_none (AList.lookup_erase key tab)

end Table

/-! ## When a reference comes or goes -/

namespace Owner

/-- The owner has a bit of its own. -/
def Fits : Owner → Prop
  | .console => True
  | .ipc tportId => tportId + 1 < 32

instance : DecidablePred Fits
  | .console => isTrue trivial
  | .ipc tportId => inferInstanceAs (Decidable (tportId + 1 < 32))

/-- The filter of the owner's own kind. -/
def kind : Owner → BloomKind
  | .console => .console
  | .ipc _ => .ipc

theorem Fits.bit_eq_zero {o : Owner} (h : o.Fits) : SubRefs.bit o = 0 ↔ o = .console := by
  cases o with
  | console => simp [SubRefs.bit]
  | ipc tportId =>
    have hlt : (tportId + 1) % 32 = tportId + 1 := Nat.mod_eq_of_lt h
    simp [SubRefs.bit, hlt]

end Owner

section Refs

variable {o : Owner} {refs : SubRefs}

/-- A reference added counts for the shared filter and for that of its kind. -/
theorem test_insert (h : o.Fits) (k : BloomKind) :
    k.test (insert (SubRefs.bit o) refs) =
      (k.test refs || decide (k = .shared) || decide (k = o.kind)) := by
  rw [Bool.eq_iff_iff]
  cases k with
  | shared => simp [BloomKind.test_shared]
  | console =>
    cases o with
    | console => simp [BloomKind.test_console, SubRefs.bit, Owner.kind]
    | ipc tportId =>
      have hne : (0 : ℕ) ≠ SubRefs.bit (.ipc tportId) := fun h0 => by
        simpa using h.bit_eq_zero.1 h0.symm
      simp [BloomKind.test_console, Owner.kind, hne]
  | ipc =>
    cases o with
    | console => simp [BloomKind.test_ipc, SubRefs.bit, Owner.kind]
    | ipc tportId =>
      have hne : SubRefs.bit (.ipc tportId) ≠ 0 := fun h0 => by
        simpa using h.bit_eq_zero.1 h0
      simp [BloomKind.test_ipc, Owner.kind, Finset.erase_insert_of_ne hne]

/-- One more reference of a kind that is there makes no difference. -/
theorem test_insert_of_kind (h : o.Fits) (hkind : o.kind.test refs = true) (k : BloomKind) :
    k.test (insert (SubRefs.bit o) refs) = k.test refs := by
  have hne : refs ≠ ∅ := by
    rintro rfl
    rw [BloomKind.test_empty] at hkind
    cases hkind
  rw [test_insert h]
  by_cases hk : k = .shared
  · subst hk
    simp [BloomKind.test_shared.2 hne]
  · by_cases hk' : k = o.kind
    · simp [hk', hkind]
    · simp [hk, hk']

theorem test_erase_of_kind (h : o.Fits) (hbit : SubRefs.bit o ∈ refs)
    (hkind : o.kind.test (refs.erase (SubRefs.bit o)) = true) (k : BloomKind) :
    k.test (refs.erase (SubRefs.bit o)) = k.test refs := by
  have hsame := test_insert_of_kind h hkind k
  rw [Finset.insert_erase hbit] at hsame
  exact hsame.symm

/-- From the counts after a start: a first reference for the filter has come. -/
def Comes (o : Owner) (c : RefCounts) : BloomKind → Prop
  | .shared => c.sub = 1
  | .console => o = .console ∧ c.console = 1
  | .ipc => o ≠ .console ∧ c.ipc = 1

/-- From the counts after a stop: the last reference for the filter has gone. -/
def Goes (o : Owner) (c : RefCounts) : BloomKind → Prop
  | .shared => c.sub = 0
  | .console => o = .console ∧ c.console = 0
  | .ipc => o ≠ .console ∧ c.ipc = 0

theorem comes_iff (h : o.Fits) (hbit : SubRefs.bit o ∉ refs) (k : BloomKind) :
    Comes o (SubRefs.counts (insert (SubRefs.bit o) refs)) k ↔
      k.test refs = false ∧ k.test (insert (SubRefs.bit o) refs) = true := by
  rw [test_insert h]
  cases k with
  | shared =>
    have hempty : BloomKind.shared.test refs = false ↔ refs = ∅ := by
      rw [← Bool.not_eq_true, BloomKind.test_shared, not_not]
    simp [Comes, SubRefs.counts, Finset.card_insert_of_notMem hbit, hempty]
  | console =>
    have hmem : BloomKind.console.test refs = false ↔ 0 ∉ refs := by
      rw [← Bool.not_eq_true, BloomKind.test_console]
    cases o with
    | console =>
      have h0 : (0 : ℕ) ∉ refs := hbit
      simp [Comes, SubRefs.counts, SubRefs.bit, hmem, Owner.kind, h0]
    | ipc tportId => simp [Comes, Owner.kind]
  | ipc =>
    have hempty : BloomKind.ipc.test refs = false ↔ refs.erase 0 = ∅ := by
      rw [← Bool.not_eq_true, BloomKind.test_ipc, not_not]
    cases o with
    | console => simp [Comes, Owner.kind]
    | ipc tportId =>
      have hne : SubRefs.bit (.ipc tportId) ≠ 0 := fun h0 => by
        simpa using h.bit_eq_zero.1 h0
      have hnot : SubRefs.bit (.ipc tportId) ∉ refs.erase 0 := fun hm =>
        hbit (Finset.mem_of_mem_erase hm)
      simp [Comes, SubRefs.counts, Finset.erase_insert_of_ne hne,
        Finset.card_insert_of_notMem hnot, hempty, Owner.kind]

theorem goes_iff (h : o.Fits) (hbit : SubRefs.bit o ∈ refs) (k : BloomKind) :
    Goes o (SubRefs.counts (refs.erase (SubRefs.bit o))) k ↔
      k.test refs = true ∧ k.test (refs.erase (SubRefs.bit o)) = false := by
  -- what was there is what is left and the reference
  have hrefs : k.test refs = (k.test (refs.erase (SubRefs.bit o)) || decide (k = .shared) ||
      decide (k = o.kind)) := by
    rw [← test_insert h, Finset.insert_erase hbit]
  rw [hrefs]
  cases k with
  | shared =>
    have hempty : BloomKind.shared.test (refs.erase (SubRefs.bit o)) = false ↔
        refs.erase (SubRefs.bit o) = ∅ := by
      rw [← Bool.not_eq_true, BloomKind.test_shared, not_not]
    simp [Goes, SubRefs.counts, hempty]
  | console =>
    have hmem : BloomKind.console.test (refs.erase (SubRefs.bit o)) = false ↔
        0 ∉ refs.erase (SubRefs.bit o) := by
      rw [← Bool.not_eq_true, BloomKind.test_console]
    cases o with
    | console =>
      simp only [Goes, SubRefs.counts, hmem, Owner.kind]
      simp [SubRefs.bit]
    | ipc tportId => simp [Goes, Owner.kind]
  | ipc =>
    have hempty : BloomKind.ipc.test (refs.erase (SubRefs.bit o)) = false ↔
        (refs.erase (SubRefs.bit o)).erase 0 = ∅ := by
      rw [← Bool.not_eq_true, BloomKind.test_ipc, not_not]
    cases o with
    | console => simp [Goes, Owner.kind]
    | ipc tportId =>
      simp only [Goes, SubRefs.counts, Finset.card_eq_zero, hempty, Owner.kind]
      simp

end Refs

/-- A filter follows a condition on one hash: it is added when the condition comes
true and deleted when it ceases to be. -/
def Follows (hash : UInt32) (before after : Bool) (bits bits' : Multiset UInt32) : Prop :=
  bits' =
    if before = after then bits else if after then hash ::ₘ bits else bits.erase hash

namespace Follows

variable {hash : UInt32} {before after : Bool} {bits bits' rest : Multiset UInt32}

theorem index (h : Follows hash before after bits bits')
    (hbits : bits = (if before then {hash} else 0) + rest) :
    bits' = (if after then {hash} else 0) + rest := by
  rw [h, hbits]
  cases before <;> cases after <;> simp

theorem same {b : Bool} (h : bits' = bits) : Follows hash b b bits bits' := by
  simp [Follows, h]

theorem of_add {p : Prop} (hadd : p → bits' = hash ::ₘ bits) (hnot : ¬ p → bits' = bits)
    (hp : p ↔ before = false ∧ after = true) (hmono : before = true → after = true) :
    Follows hash before after bits bits' := by
  cases before with
  | true =>
    rw [hmono rfl]
    exact same (hnot fun h => by simpa using (hp.1 h).1)
  | false =>
    cases after with
    | true => exact hadd (hp.2 ⟨rfl, rfl⟩)
    | false => exact same (hnot fun h => by simpa using (hp.1 h).2)

theorem of_del {p : Prop} (hdel : p → bits' = bits.erase hash) (hnot : ¬ p → bits' = bits)
    (hp : p ↔ before = true ∧ after = false) (hmono : after = true → before = true) :
    Follows hash before after bits bits' := by
  cases after with
  | true =>
    rw [hmono rfl]
    exact same (hnot fun h => by simpa using (hp.1 h).2)
  | false =>
    cases before with
    | true => exact hdel (hp.2 ⟨rfl, rfl⟩)
    | false => exact same (hnot fun h => by simpa using (hp.1 h).1)

end Follows

/-! ## The arguments of a call -/

/-- The arguments as the callers make them. -/
def SubArgs.Fresh (ctx : SubArgs) (start : Bool) : Prop :=
  ctx.isStart = start ∧ ctx.count = ⟨0, 0, 0⟩ ∧ ctx.coll = ⟨0, 0, 0⟩

def PatternArgs.Fresh (ctx : PatternArgs) (start : Bool) : Prop :=
  ctx.isStart = start ∧ ctx.count = ⟨0, 0, 0⟩

namespace SubDB

variable {kv : Kv} {db db' : SubDB}

def Call.Fresh : Call → Prop
  | .subStart ctx _ => ctx.Fresh true
  | .subStop ctx => ctx.Fresh false
  | .psubStart ctx => ctx.Fresh true
  | .psubStop ctx => ctx.Fresh false
  | .resizeBloom .. => True
  | .none => True

theorem call_fresh (kv : Kv) (db : SubDB) (e : Event) : (db.call kv e).Fresh := by
  cases e with
  | queueSubUpdate sub hash tportId queue queueHash subCount mem =>
    by_cases h : subCount = 0
    · simp [call, h, Call.Fresh, SubArgs.Fresh, SubArgs.new]
    · simp [call, h, Call.Fresh, SubArgs.Fresh, SubArgs.new]
  | consolePsubStart pat fmt cb =>
    simp only [call]
    split
    · trivial
    · exact ⟨rfl, rfl⟩
  | consolePsubStop pat fmt =>
    simp only [call]
    split
    · trivial
    · exact ⟨rfl, rfl⟩
  | queuePsubUpdate pat cvt hash tportId queue queueHash subCount =>
    by_cases h : subCount = 0
    · simp [call, h, Call.Fresh, PatternArgs.Fresh, PatternArgs.new]
    · simp [call, h, Call.Fresh, PatternArgs.Fresh, PatternArgs.new]
  | ipcPsubStart pat cvt hash tportId => exact ⟨rfl, rfl⟩
  | ipcPsubStop pat cvt hash tportId => exact ⟨rfl, rfl⟩
  | resizeBloom bloom console ipc => trivial
  | consoleSubStart sub cb mem => exact ⟨rfl, rfl, rfl⟩
  | consoleSubStop sub => exact ⟨rfl, rfl, rfl⟩
  | ipcSubStart sub hash tportId mem => exact ⟨rfl, rfl, rfl⟩
  | ipcSubStop sub hash tportId => exact ⟨rfl, rfl, rfl⟩

/-- A call that the filters can follow. The console and ipc filters of a subject
are looked at only when its first reference comes or its last one goes, so another
reference of the owner's kind has to be there; a hash that two subjects share is
counted by the references of one; and an owner that stops must have a reference. A
queue adds its hash with every start and deletes it with every stop of a subject. -/
def SoundCall (db : SubDB) : Call → Prop
  | .subStart ctx mem =>
    ctx.owner.Fits ∧ ∀ tab ∈ db.subTabOf ctx,
      (tab.lookup ctx.key = none → ctx.queueHash = 0 →
        collisions tab ctx.key = 0 ∨ mem = ∅) ∧
      ∀ rt, tab.lookup ctx.key = some rt →
        ctx.queueHash = 0 ∧ ctx.owner.kind.test rt.ref = true
  | .subStop ctx =>
    ctx.owner.Fits ∧ ∀ tab ∈ db.subTabOf ctx, ∀ rt, tab.lookup ctx.key = some rt →
      SubRefs.bit ctx.owner ∈ rt.ref ∧
        (rt.ref.erase (SubRefs.bit ctx.owner) = ∅ → ctx.queueHash = 0 →
          collisions tab ctx.key = 0) ∧
        (rt.ref.erase (SubRefs.bit ctx.owner) ≠ ∅ →
          ctx.queueHash = 0 ∧
            ctx.owner.kind.test (rt.ref.erase (SubRefs.bit ctx.owner)) = true)
  | .psubStart ctx =>
    ctx.owner.Fits ∧ ∀ t ∈ db.patTabOf ctx, ∀ rt, t.tab.lookup ctx.key = some rt →
      ctx.queueHash = 0 ∧ ctx.queueSub = false
  | .psubStop ctx =>
    ctx.owner.Fits ∧ ∀ t ∈ db.patTabOf ctx, ∀ rt, t.tab.lookup ctx.key = some rt →
      SubRefs.bit ctx.owner ∈ rt.ref
  | .resizeBloom .. => True
  | .none => True

end SubDB

/-- The queue routes are counted by their hash, like the others. -/
structure Kv.Counting (kv : Kv) : Prop where
  add : ∀ b n h m, (kv.addQueueRoute b n h m).bits = h ::ₘ b.bits
  del : ∀ b n h m, (kv.delQueueRoute b n h m).bits = b.bits.erase h

namespace SubDB

variable {kv : Kv} {db db' : SubDB}

/-! ## What `update_bloom` does to a filter -/

/-- The filter of the kind is added to, for a subject that starts. -/
def AddsSub (ctx : SubArgs) : BloomKind → Prop
  | .shared => ctx.queueHash ≠ 0 ∨ ctx.count.sub = 1 ∧ ctx.coll.sub = 0
  | .console => ctx.owner = .console ∧ (ctx.queueHash ≠ 0 ∨
      (ctx.count.sub = 1 ∧ ctx.coll.sub = 0) ∧ ctx.count.console = 1 ∧ ctx.coll.console = 0)
  | .ipc => ctx.owner ≠ .console ∧ (ctx.queueHash ≠ 0 ∨
      (ctx.count.sub = 1 ∧ ctx.coll.sub = 0) ∧ ctx.count.ipc = 1 ∧ ctx.coll.ipc = 0)

/-- The filter of the kind is deleted from, for a subject that stops. -/
def DelsSub (ctx : SubArgs) : BloomKind → Prop
  | .shared => ctx.queueHash ≠ 0 ∨ ctx.count.sub = 0 ∧ ctx.coll.sub = 0
  | .console => ctx.owner = .console ∧ (ctx.queueHash ≠ 0 ∨
      (ctx.count.sub = 0 ∧ ctx.coll.sub = 0) ∧ ctx.count.console = 0 ∧ ctx.coll.console = 0)
  | .ipc => ctx.owner ≠ .console ∧ (ctx.queueHash ≠ 0 ∨
      (ctx.count.sub = 0 ∧ ctx.coll.sub = 0) ∧ ctx.count.ipc = 0 ∧ ctx.coll.ipc = 0)

section Bits

variable (db : SubDB) {ctx : SubArgs} {k : BloomKind}

theorem startBloom_add (hkv : kv.Counting) (h : AddsSub ctx k) :
    ((db.startBloom kv ctx).1.bloomOf k).bits = ctx.hash ::ₘ (db.bloomOf k).bits := by
  have hadd := hkv.add
  cases k <;> grind [startBloom, bloomOf, AddsSub, BloomRef.add, BloomRef.addRoute]

theorem startBloom_not (h : ¬ AddsSub ctx k) :
    ((db.startBloom kv ctx).1.bloomOf k).bits = (db.bloomOf k).bits := by
  cases k <;> grind [startBloom, bloomOf, AddsSub]

theorem stopBloom_del (hkv : kv.Counting) (h : DelsSub ctx k) :
    ((db.stopBloom kv ctx).1.bloomOf k).bits = (db.bloomOf k).bits.erase ctx.hash := by
  have hdel := hkv.del
  cases k <;> grind [stopBloom, bloomOf, DelsSub, BloomRef.del, BloomRef.delRoute]

theorem stopBloom_not (h : ¬ DelsSub ctx k) :
    ((db.stopBloom kv ctx).1.bloomOf k).bits = (db.bloomOf k).bits := by
  cases k <;> grind [stopBloom, bloomOf, DelsSub]

end Bits

/-- A filter after `update_bloom` and what follows it. -/
theorem finishSub_bloomOf (kv : Kv) (db : SubDB) (ctx : SubArgs) {status : SubStatus} (n : ℕ)
    (h : status = .ok ∨ status = .updated) (k : BloomKind) :
    (db.finishSub kv ctx status n).db.bloomOf k =
      ((if ctx.isStart then { db with updateSeqno := db.updateSeqno + 1 }.startBloom kv ctx
        else { db with updateSeqno := db.updateSeqno + 1 }.stopBloom kv ctx).1.bloomOf k) := by
  rw [finishSub, if_pos h]
  dsimp only
  split
  · cases k <;> rfl
  · rfl

theorem finishSub_bloomOf_same (kv : Kv) (db : SubDB) (ctx : SubArgs) {status : SubStatus} (n : ℕ)
    (h : ¬ (status = .ok ∨ status = .updated)) (k : BloomKind) :
    (db.finishSub kv ctx status n).db.bloomOf k = db.bloomOf k := by
  rw [finishSub, if_neg h]

/-- A start of a subject, where the filters have to follow the references. -/
theorem finishSub_start (hkv : kv.Counting) (db : SubDB) (ctx : SubArgs) {status : SubStatus}
    {n : ℕ} (hst : status = .ok ∨ status = .updated) (hs : ctx.isStart = true) {k : BloomKind}
    {before after : Bool} (hadds : AddsSub ctx k ↔ before = false ∧ after = true)
    (hmono : before = true → after = true) :
    Follows ctx.hash before after (db.bloomOf k).bits
      ((db.finishSub kv ctx status n).db.bloomOf k).bits := by
  rw [finishSub_bloomOf kv db ctx n hst, if_pos hs]
  have hsame : { db with updateSeqno := db.updateSeqno + 1 }.bloomOf k = db.bloomOf k := by
    cases k <;> rfl
  rw [← hsame]
  exact .of_add (startBloom_add _ hkv) (startBloom_not _) hadds hmono

theorem finishSub_stop (hkv : kv.Counting) (db : SubDB) (ctx : SubArgs) {status : SubStatus}
    {n : ℕ} (hst : status = .ok ∨ status = .updated) (hs : ctx.isStart = false) {k : BloomKind}
    {before after : Bool} (hdels : DelsSub ctx k ↔ before = true ∧ after = false)
    (hmono : after = true → before = true) :
    Follows ctx.hash before after (db.bloomOf k).bits
      ((db.finishSub kv ctx status n).db.bloomOf k).bits := by
  rw [finishSub_bloomOf kv db ctx n hst, if_neg (by simp [hs])]
  have hsame : { db with updateSeqno := db.updateSeqno + 1 }.bloomOf k = db.bloomOf k := by
    cases k <;> rfl
  rw [← hsame]
  exact .of_del (stopBloom_del _ hkv) (stopBloom_not _) hdels hmono

/-! ## One route -/

/-- At most the route of one key of a table has changed, and the filters follow
its references. -/
structure FollowsTab {α : Type} (ref : α → SubRefs) (key : RouteKey) (tab tab' : RouteVec α)
    (db db' : SubDB) : Prop where
  blooms : ∀ k : BloomKind, Follows key.hash (k.test (refsOf ref tab key))
    (k.test (refsOf ref tab' key)) (db.bloomOf k).bits (db'.bloomOf k).bits
  others : FiniteMap.entries (tab'.erase key) = FiniteMap.entries (tab.erase key)
  nonempty : ∀ rt, tab'.lookup key = some rt → ref rt ≠ ∅

namespace FollowsTab

variable {α : Type} {ref : α → SubRefs} {key : RouteKey} {tab : RouteVec α}

theorem of_insert {rt : α} (hne : ref rt ≠ ∅)
    (hblooms : ∀ k : BloomKind, Follows key.hash (k.test (refsOf ref tab key)) (k.test (ref rt))
      (db.bloomOf k).bits (db'.bloomOf k).bits) :
    FollowsTab ref key tab (tab.insert key rt) db db' := by
  refine ⟨fun k => ?_, erase_insert_entries rt, fun rt' hrt => ?_⟩
  · rw [refsOf_insert]
    exact hblooms k
  · obtain rfl : rt = rt' := by simpa using hrt
    exact hne

theorem of_erase {tab' : RouteVec α}
    (htab : FiniteMap.entries (tab'.erase key) = FiniteMap.entries (tab.erase key))
    (hblooms : ∀ k : BloomKind, Follows key.hash (k.test (refsOf ref tab key)) false
      (db.bloomOf k).bits (db'.bloomOf k).bits) :
    FollowsTab ref key tab (tab'.erase key) db db' := by
  refine ⟨fun k => ?_, erase_erase_entries.trans htab, fun rt hrt => ?_⟩
  · rw [refsOf_erase, BloomKind.test_empty]
    exact hblooms k
  · simp at hrt

end FollowsTab

/-- Every filter is what `index_bloom` gives, and no route is without references. -/
structure BloomInv (db : SubDB) : Prop where
  index : ∀ k : BloomKind, (db.bloomOf k).bits = db.indexOf k
  nonempty : ∀ e ∈ db.routeRefs, e.2 ≠ ∅

theorem BloomInv.same (h : db.BloomInv) (hbits : ∀ k, (db'.bloomOf k).bits = (db.bloomOf k).bits)
    (hrefs : db'.routeRefs = db.routeRefs) (hbase : db'.baseHashes = db.baseHashes) :
    db'.BloomInv := by
  refine ⟨fun k => ?_, fun e he => ?_⟩
  · rw [hbits, h.index, indexOf_eq, indexOf_eq, hrefs, hbase]
  · rw [hrefs] at he
    exact h.nonempty e he

theorem BloomInv.follows {α : Type} {ref : α → SubRefs} {key : RouteKey} {tab tab' : RouteVec α}
    (h : db.BloomInv) (hf : FollowsTab ref key tab tab' db db')
    {rest : Multiset (UInt32 × SubRefs)} (hbefore : db.routeRefs = tabRefs ref tab + rest)
    (hafter : db'.routeRefs = tabRefs ref tab' + rest) (hbase : db'.baseHashes = db.baseHashes) :
    db'.BloomInv := by
  have hothers : tabRefs ref (tab'.erase key) = tabRefs ref (tab.erase key) := by
    rw [tabRefs, hf.others, tabRefs]
  refine ⟨fun k => ?_, fun e he => ?_⟩
  · have hbits := h.index k
    rw [indexOf_eq, hbefore, BloomKind.hashes_add, hashes_split ref k tab key, add_assoc,
      add_left_comm] at hbits
    rw [(hf.blooms k).index hbits, indexOf_eq, hafter, BloomKind.hashes_add,
      hashes_split ref k tab' key, hothers, hbase, add_assoc, add_left_comm]
  · rw [hafter, Multiset.mem_add] at he
    rcases he with he | he
    · obtain ⟨⟨key', rt⟩, hmem, rfl⟩ := Multiset.mem_map.1 he
      by_cases hkey : key' = key
      · subst hkey
        exact hf.nonempty rt (FiniteMap.mem_entries.1 hmem)
      · -- the route of another key was there before
        have hlook : (tab'.erase key).lookup key' = some rt := by
          rw [AList.lookup_erase_ne hkey]
          exact FiniteMap.mem_entries.1 hmem
        have hold := FiniteMap.mem_entries.2 hlook
        rw [hf.others, FiniteMap.mem_entries, AList.lookup_erase_ne hkey] at hold
        refine h.nonempty (key'.hash, ref rt) ?_
        rw [hbefore, Multiset.mem_add]
        exact .inl (Multiset.mem_map.2 ⟨⟨key', rt⟩, FiniteMap.mem_entries.2 hold, rfl⟩)
    · refine h.nonempty e ?_
      rw [hbefore, Multiset.mem_add]
      exact .inr he

/-! ## Subjects -/

section Subjects

variable {tab : RouteVec SubRoute} {ctx : SubArgs} {db₁ : SubDB} (list : SubList)

theorem test_mono_insert {o : Owner} {refs : SubRefs} (h : o.Fits) {k : BloomKind}
    (hk : k.test refs = true) : k.test (insert (SubRefs.bit o) refs) = true := by
  rw [test_insert h, hk]
  rfl

/-- The counts of a first reference. -/
theorem counts_first {o : Owner} (h : o.Fits) :
    let c := SubRefs.counts (insert (SubRefs.bit o) ∅)
    c.sub = 1 ∧ (o = .console → c.console = 1) ∧ (o ≠ .console → c.ipc = 1) := by
  refine ⟨by simp [SubRefs.counts], fun ho => by simp [SubRefs.counts, ho, SubRefs.bit],
    fun ho => ?_⟩
  have hne : SubRefs.bit o ≠ 0 := fun h0 => ho (h.bit_eq_zero.1 h0)
  show ((insert (SubRefs.bit o) ∅ : Finset ℕ).erase 0).card = 1
  rw [Finset.erase_insert_of_ne hne]
  rfl

theorem addsSub_first (ctx : SubArgs) (hfits : ctx.owner.Fits)
    (hcount : ctx.count = SubRefs.counts (insert (SubRefs.bit ctx.owner) ∅))
    (hcoll : ctx.queueHash = 0 → ctx.coll = ⟨0, 0, 0⟩) (k : BloomKind) :
    AddsSub ctx k ↔ Comes ctx.owner ctx.count k := by
  obtain ⟨hsub, hconsole, hipc⟩ := counts_first hfits
  rw [← hcount] at hsub hconsole hipc
  cases k <;> grind [AddsSub, Comes]

/-- A subject that is new: the first references come. -/
theorem followsTab_startNew (hkv : kv.Counting) (hf : ctx.Fresh true) (hfits : ctx.owner.Fits)
    (hlook : tab.lookup ctx.key = none) {mem : SubRefs}
    (hcoll : ctx.queueHash = 0 → collisions tab ctx.key = 0 ∨ mem = ∅)
    (hsame : ∀ k, db₁.bloomOf k = db.bloomOf k) :
    let r := SubTab.start tab list ctx mem
    FollowsTab SubRoute.ref ctx.key tab r.1 db (db₁.finishSub kv r.2.2.1 r.2.2.2 1).db := by
  obtain ⟨hstart, -, hfresh⟩ := hf
  rw [SubTab.start_none _ hlook]
  let ctx' := (SubRoute.start (ctx.resolveColl mem (collisions tab ctx.key))).2
  have hcount : ctx'.count = SubRefs.counts (insert (SubRefs.bit ctx.owner) ∅) := by
    simp [ctx', SubRoute.start, SubRefs.init, SubRefs.counts, SubArgs.resolveColl]
  have hcoll' : ctx.queueHash = 0 → ctx'.coll = ⟨0, 0, 0⟩ := by
    intro hq
    rcases hcoll hq with h0 | h0
    · simp [ctx', SubRoute.start, SubArgs.resolveColl, h0, hfresh]
    · simp [ctx', SubRoute.start, SubArgs.resolveColl, h0, hfresh, SubRefs.counts]
  refine .of_insert (Finset.singleton_ne_empty _) fun k => ?_
  rw [refsOf_none hlook, ← hsame]
  refine finishSub_start hkv _ ctx' (.inl rfl) hstart ?_ fun h => ?_
  · have hcomes := comes_iff hfits (Finset.notMem_empty (SubRefs.bit ctx.owner)) k
    refine Iff.trans ?_ hcomes
    rw [← hcount]
    exact addsSub_first ctx' hfits hcount hcoll' k
  · rw [BloomKind.test_empty] at h
    cases h

/-- A subject that has a reference of the owner's kind. -/
theorem followsTab_startOld (hkv : kv.Counting) (hf : ctx.Fresh true) (hfits : ctx.owner.Fits)
    {rt : SubRoute} (hlook : tab.lookup ctx.key = some rt) (hq : ctx.queueHash = 0)
    (hkind : ctx.owner.kind.test rt.ref = true) (mem : SubRefs)
    (hsame : ∀ k, db₁.bloomOf k = db.bloomOf k) :
    let r := SubTab.start tab list ctx mem
    FollowsTab SubRoute.ref ctx.key tab r.1 db (db₁.finishSub kv r.2.2.1 r.2.2.2 1).db := by
  have hne : rt.ref ≠ ∅ := by
    intro h
    rw [h, BloomKind.test_empty] at hkind
    cases hkind
  by_cases hbit : SubRefs.bit ctx.owner ∈ rt.ref
  · rw [SubTab.start_held _ hlook hbit]
    refine .of_insert hne fun k => ?_
    rw [refsOf_some hlook, ← hsame, finishSub_bloomOf_same _ _ _ _ (by simp)]
    exact .same rfl
  · rw [SubTab.start_join _ hlook hbit]
    refine .of_insert (Finset.insert_ne_empty _ _) fun k => ?_
    rw [refsOf_some hlook, ← hsame]
    let ctx' : SubArgs := { ctx.resolveColl rt.ref (collisions tab ctx.key) with
      count := SubRefs.counts (insert (SubRefs.bit ctx.owner) rt.ref)
      seqno := rt.startSeqno }
    refine finishSub_start hkv _ ctx' (.inr rfl) hf.1 ⟨fun hadds => ?_, fun h => ?_⟩
      (test_mono_insert hfits)
    · -- one more than the references that are there
      have hcard : (insert (SubRefs.bit ctx.owner) rt.ref).card = rt.ref.card + 1 :=
        Finset.card_insert_of_notMem hbit
      have hpos : rt.ref.card ≠ 0 := fun h0 => hne (Finset.card_eq_zero.1 h0)
      have hone : ctx'.count.sub = 1 := by
        have hq' : ctx'.queueHash = 0 := hq
        cases k <;> grind [AddsSub]
      have hcount : ctx'.count.sub = (insert (SubRefs.bit ctx.owner) rt.ref).card := rfl
      omega
    · have hsame := test_insert_of_kind hfits hkind k
      rw [hsame, h.1] at h
      cases h.2

theorem delsSub_last (hcount : ctx.count = ⟨0, 0, 0⟩)
    (hcoll : ctx.queueHash = 0 → ctx.coll = ⟨0, 0, 0⟩) (k : BloomKind) :
    DelsSub ctx k ↔ Goes ctx.owner ctx.count k := by
  cases k <;> grind [DelsSub, Goes]

theorem test_mono_erase {o : Owner} {refs : SubRefs} (h : o.Fits) (hbit : SubRefs.bit o ∈ refs)
    {k : BloomKind} (hk : k.test (refs.erase (SubRefs.bit o)) = true) : k.test refs = true := by
  have hins := test_mono_insert h hk
  rwa [Finset.insert_erase hbit] at hins

/-- A subject whose last reference goes. -/
theorem followsTab_stopLast (hkv : kv.Counting) (hf : ctx.Fresh false) (hfits : ctx.owner.Fits)
    {rt : SubRoute} (hlook : tab.lookup ctx.key = some rt)
    (hbit : SubRefs.bit ctx.owner ∈ rt.ref) (hlast : rt.ref.erase (SubRefs.bit ctx.owner) = ∅)
    (hcoll : ctx.queueHash = 0 → collisions tab ctx.key = 0)
    (hsame : ∀ k, db₁.bloomOf k = db.bloomOf k) :
    let r := SubTab.stop tab list ctx
    FollowsTab SubRoute.ref ctx.key tab r.1 db (db₁.finishSub kv r.2.2.1 r.2.2.2 0).db := by
  obtain ⟨hstop, -, hfresh⟩ := hf
  rw [SubTab.stop_last _ hlook hbit hlast]
  refine .of_erase rfl fun k => ?_
  rw [refsOf_some hlook, ← hsame]
  let ctx' : SubArgs :=
    { ctx.resolveColl rt.ref (collisions tab ctx.key) with count := ⟨0, 0, 0⟩ }
  have hcoll' : ctx'.queueHash = 0 → ctx'.coll = ⟨0, 0, 0⟩ := fun hq => by
    simp [ctx', SubArgs.resolveColl, hcoll hq, hfresh]
  refine finishSub_stop hkv _ ctx' (.inl rfl) hstop ?_ fun h => ?_
  · have hgoes := goes_iff hfits hbit k
    rw [hlast, BloomKind.test_empty] at hgoes
    exact (delsSub_last rfl hcoll' k).trans hgoes
  · cases h

/-- A subject that keeps a reference of the owner's kind. -/
theorem followsTab_stopLeft (hkv : kv.Counting) (hf : ctx.Fresh false) (hfits : ctx.owner.Fits)
    {rt : SubRoute} (hlook : tab.lookup ctx.key = some rt) (hq : ctx.queueHash = 0)
    (hbit : SubRefs.bit ctx.owner ∈ rt.ref) (hleft : rt.ref.erase (SubRefs.bit ctx.owner) ≠ ∅)
    (hkind : ctx.owner.kind.test (rt.ref.erase (SubRefs.bit ctx.owner)) = true)
    (hsame : ∀ k, db₁.bloomOf k = db.bloomOf k) :
    let r := SubTab.stop tab list ctx
    FollowsTab SubRoute.ref ctx.key tab r.1 db (db₁.finishSub kv r.2.2.1 r.2.2.2 0).db := by
  rw [SubTab.stop_left _ hlook hbit hleft]
  refine .of_insert hleft fun k => ?_
  rw [refsOf_some hlook, ← hsame]
  let ctx' : SubArgs := { ctx.resolveColl rt.ref (collisions tab ctx.key) with
    count := SubRefs.counts (rt.ref.erase (SubRefs.bit ctx.owner))
    seqno := rt.startSeqno }
  refine finishSub_stop hkv _ ctx' (.inr rfl) hf.1 ⟨fun hdels => ?_, fun h => ?_⟩
    (test_mono_erase hfits hbit)
  · have hzero : ctx'.count.sub = 0 := by
      have hq' : ctx'.queueHash = 0 := hq
      cases k <;> grind [DelsSub]
    exact absurd (Finset.card_eq_zero.1 hzero) hleft
  · have hsame := test_erase_of_kind hfits hbit hkind k
    rw [hsame, h.1] at h
    cases h.2

end Subjects

/-! ### The routes besides those of a table -/

theorem SameRoutes.routeRefs (h : SameRoutes db db') : db'.routeRefs = db.routeRefs := by
  simp only [SubDB.routeRefs, h.subTab, h.patTab, h.queueTab]

theorem queueRefs_append (before : List QueueSubTab) (t : QueueSubTab) (after : List QueueSubTab) :
    queueRefs (before ++ t :: after) = tabRefs SubRoute.ref t.subTab +
      (tabRefs PatRoute.ref t.patTab.tab + (queueRefs before + queueRefs after)) := by
  simp only [queueRefs, List.map_append, List.sum_append, List.map_cons, List.sum_cons]
  abel

theorem queueRefs_findTab {queue : Subject} {queueHash : UInt32} {t : QueueSubTab}
    {tabs before after : List QueueSubTab}
    (h : QueueSubArray.findTab queue queueHash tabs = some (before, t, after)) :
    queueRefs tabs = queueRefs (before ++ t :: after) :=
  QueueSubArray.sum_findTab _ rfl h

theorem routeRefs_eq_sub (db : SubDB) : db.routeRefs = tabRefs SubRoute.ref db.subTab +
    (tabRefs PatRoute.ref db.patTab.tab + queueRefs db.queueTab) :=
  add_assoc _ _ _

theorem routeRefs_eq_pat (db : SubDB) : db.routeRefs = tabRefs PatRoute.ref db.patTab.tab +
    (tabRefs SubRoute.ref db.subTab + queueRefs db.queueTab) := by
  rw [SubDB.routeRefs]
  abel

theorem routeRefs_eq_queueSub (db : SubDB) (before : List QueueSubTab) (t : QueueSubTab)
    (after : List QueueSubTab) (h : queueRefs db.queueTab = queueRefs (before ++ t :: after)) :
    db.routeRefs = tabRefs SubRoute.ref t.subTab + (tabRefs PatRoute.ref t.patTab.tab +
      (queueRefs before + queueRefs after) +
      (tabRefs SubRoute.ref db.subTab + tabRefs PatRoute.ref db.patTab.tab)) := by
  rw [SubDB.routeRefs, h, queueRefs_append]
  abel

theorem routeRefs_eq_queuePat (db : SubDB) (before : List QueueSubTab) (t : QueueSubTab)
    (after : List QueueSubTab) (h : queueRefs db.queueTab = queueRefs (before ++ t :: after)) :
    db.routeRefs = tabRefs PatRoute.ref t.patTab.tab + (tabRefs SubRoute.ref t.subTab +
      (queueRefs before + queueRefs after) +
      (tabRefs SubRoute.ref db.subTab + tabRefs PatRoute.ref db.patTab.tab)) := by
  rw [SubDB.routeRefs, h, queueRefs_append]
  abel

theorem baseHashes_congr (hibx : db'.ibxHash = db.ibxHash) (hmch : db'.mchHash = db.mchHash) :
    db'.baseHashes = db.baseHashes := by
  funext k
  cases k <;> simp [baseHashes, hibx, hmch]

theorem finishSub_baseHashes (kv : Kv) (db : SubDB) (ctx : SubArgs) (status : SubStatus) (n : ℕ) :
    (db.finishSub kv ctx status n).db.baseHashes = db.baseHashes := by
  have hupdate : (db.updateBloom kv ctx).1.baseHashes = db.baseHashes := by
    simp only [updateBloom, startBloom, stopBloom]
    split_ifs <;> exact baseHashes_congr rfl rfl
  rw [finishSub]
  split
  · dsimp only
    split
    · exact hupdate
    · exact hupdate
  · rfl

theorem finishSub_routeRefs (kv : Kv) (db : SubDB) (ctx : SubArgs) (status : SubStatus) (n : ℕ) :
    (db.finishSub kv ctx status n).db.routeRefs = db.routeRefs :=
  (finishSub_spec kv db ctx status n).1.routeRefs

/-! ### The calls for subjects -/

/-- A request that went to a table of subjects, and its end. -/
theorem BloomInv.finishSub (h : db.BloomInv) {db₁ : SubDB} {key : RouteKey}
    {tab tab' : RouteVec SubRoute} {ctx : SubArgs} {status : SubStatus} {n : ℕ}
    (hf : FollowsTab SubRoute.ref key tab tab' db (db₁.finishSub kv ctx status n).db)
    {rest : Multiset (UInt32 × SubRefs)} (hbefore : db.routeRefs = tabRefs SubRoute.ref tab + rest)
    (hafter : db₁.routeRefs = tabRefs SubRoute.ref tab' + rest)
    (hbase : db₁.baseHashes = db.baseHashes) : (db₁.finishSub kv ctx status n).db.BloomInv := by
  refine h.follows hf hbefore ?_ ?_
  · rw [finishSub_routeRefs, hafter]
  · rw [finishSub_baseHashes, hbase]

/-- A request that changed no table and was refused. -/
theorem BloomInv.refusedSub (h : db.BloomInv) {db₁ : SubDB} {ctx : SubArgs} {status : SubStatus}
    {n : ℕ} (hstatus : ¬ (status = .ok ∨ status = .updated)) (hblooms : ∀ k, db₁.bloomOf k = db.bloomOf k)
    (hroutes : db₁.routeRefs = db.routeRefs) (hbase : db₁.baseHashes = db.baseHashes) :
    (db₁.finishSub kv ctx status n).db.BloomInv := by
  refine h.same (fun k => ?_) ?_ ?_
  · rw [finishSub_bloomOf_same _ _ _ _ hstatus, hblooms]
  · rw [finishSub_routeRefs, hroutes]
  · rw [finishSub_baseHashes, hbase]

theorem bloomOf_tables (db : SubDB) (subTab : RouteVec SubRoute) (patTab : PatTab) (list : SubList)
    (queueTab : List QueueSubTab) (k : BloomKind) :
    { db with subTab := subTab, patTab := patTab, subList := list,
              queueTab := queueTab }.bloomOf k = db.bloomOf k := by
  cases k <;> rfl

section

variable {ctx : SubArgs}

theorem startSubTab_plain (hq : ctx.queueHash = 0) (mem : SubRefs) :
    db.startSubTab ctx mem =
      ({ db with
          subTab := (SubTab.start db.subTab db.subList ctx mem).1
          subList := (SubTab.start db.subTab db.subList ctx mem).2.1 },
        (SubTab.start db.subTab db.subList ctx mem).2.2) :=
  if_pos hq

theorem startSubTab_unknown (hq : ctx.queueHash ≠ 0)
    (hf : QueueSubArray.findTab ctx.queue ctx.queueHash db.queueTab = none) (mem : SubRefs) :
    db.startSubTab ctx mem = (db, ctx, .error) := by
  rw [startSubTab, if_neg hq, QueueSubArray.startSub, hf]

theorem startSubTab_queue (hq : ctx.queueHash ≠ 0) {before after : List QueueSubTab}
    {t : QueueSubTab}
    (hf : QueueSubArray.findTab ctx.queue ctx.queueHash db.queueTab = some (before, t, after))
    (mem : SubRefs) :
    db.startSubTab ctx mem =
      ({ db with
          queueTab :=
            before ++ { t with subTab := (SubTab.start t.subTab db.subList ctx mem).1 } :: after
          subList := (SubTab.start t.subTab db.subList ctx mem).2.1 },
        (SubTab.start t.subTab db.subList ctx mem).2.2.1,
        QueueSubArray.queueStatus (SubTab.start t.subTab db.subList ctx mem).2.2.2) := by
  rw [startSubTab, if_neg hq, QueueSubArray.startSub, hf]

theorem stopSubTab_plain (hq : ctx.queueHash = 0) :
    db.stopSubTab ctx =
      ({ db with
          subTab := (SubTab.stop db.subTab db.subList ctx).1
          subList := (SubTab.stop db.subTab db.subList ctx).2.1 },
        (SubTab.stop db.subTab db.subList ctx).2.2) :=
  if_pos hq

theorem stopSubTab_unknown (hq : ctx.queueHash ≠ 0)
    (hf : QueueSubArray.findTab ctx.queue ctx.queueHash db.queueTab = none) :
    db.stopSubTab ctx = (db, ctx, .notFound) := by
  rw [stopSubTab, if_neg hq, QueueSubArray.stopSub, hf]

theorem stopSubTab_queue (hq : ctx.queueHash ≠ 0) {before after : List QueueSubTab}
    {t : QueueSubTab}
    (hf : QueueSubArray.findTab ctx.queue ctx.queueHash db.queueTab = some (before, t, after)) :
    db.stopSubTab ctx =
      ({ db with
          queueTab := before ++ { t with subTab := (SubTab.stop t.subTab db.subList ctx).1 } :: after
          subList := (SubTab.stop t.subTab db.subList ctx).2.1 },
        (SubTab.stop t.subTab db.subList ctx).2.2) := by
  rw [stopSubTab, if_neg hq, QueueSubArray.stopSub, hf]

theorem subTabOf_found (hq : ctx.queueHash ≠ 0) {before after : List QueueSubTab}
    {t : QueueSubTab}
    (hf : QueueSubArray.findTab ctx.queue ctx.queueHash db.queueTab = some (before, t, after)) :
    db.subTabOf ctx = some t.subTab := by
  rw [subTabOf, if_neg hq, hf]
  rfl

end

theorem BloomInv.subStart (h : db.BloomInv) (hkv : kv.Counting) {ctx : SubArgs} {mem : SubRefs}
    (hf : ctx.Fresh true) (hs : SoundCall db (.subStart ctx mem)) :
    (db.subStart kv ctx mem).db.BloomInv := by
  obtain ⟨hfits, htab⟩ := hs
  rw [SubDB.subStart]
  by_cases hq : ctx.queueHash = 0
  · obtain ⟨hnew, hold⟩ := htab db.subTab (if_pos hq)
    rw [startSubTab_plain hq]
    have hsame := bloomOf_tables db (SubTab.start db.subTab db.subList ctx mem).1 db.patTab
      (SubTab.start db.subTab db.subList ctx mem).2.1 db.queueTab
    cases hlook : db.subTab.lookup ctx.key with
    | none =>
      exact h.finishSub (followsTab_startNew _ hkv hf hfits hlook (hnew hlook) hsame)
        db.routeRefs_eq_sub (routeRefs_eq_sub _) (baseHashes_congr rfl rfl)
    | some rt =>
      exact h.finishSub (followsTab_startOld _ hkv hf hfits hlook hq (hold rt hlook).2 mem hsame)
        db.routeRefs_eq_sub (routeRefs_eq_sub _) (baseHashes_congr rfl rfl)
  · cases hfind : QueueSubArray.findTab ctx.queue ctx.queueHash db.queueTab with
    | none =>
      rw [startSubTab_unknown hq hfind]
      exact h.refusedSub (by simp) (fun _ => rfl) rfl rfl
    | some r =>
      obtain ⟨before, t, after⟩ := r
      obtain ⟨hnew, hold⟩ := htab t.subTab (subTabOf_found hq hfind)
      rw [startSubTab_queue hq hfind]
      cases hlook : t.subTab.lookup ctx.key with
      | none =>
        have hok : QueueSubArray.queueStatus
            (SubTab.start t.subTab db.subList ctx mem).2.2.2 =
              (SubTab.start t.subTab db.subList ctx mem).2.2.2 := by
          rw [SubTab.start_none _ hlook]
          rfl
        rw [hok]
        exact h.finishSub (followsTab_startNew _ hkv hf hfits hlook (hnew hlook)
            (bloomOf_tables db _ _ _ _))
          (routeRefs_eq_queueSub db before t after (queueRefs_findTab hfind))
          (routeRefs_eq_queueSub _ before { t with subTab := _ } after rfl) (baseHashes_congr rfl rfl)
      | some rt => exact absurd (hold rt hlook).1 hq

theorem BloomInv.subStop (h : db.BloomInv) (hkv : kv.Counting) {ctx : SubArgs}
    (hf : ctx.Fresh false) (hs : SoundCall db (.subStop ctx)) :
    (db.subStop kv ctx).db.BloomInv := by
  obtain ⟨hfits, htab⟩ := hs
  rw [SubDB.subStop]
  by_cases hq : ctx.queueHash = 0
  · have hstop := htab db.subTab (if_pos hq)
    rw [stopSubTab_plain hq]
    have hsame := bloomOf_tables db (SubTab.stop db.subTab db.subList ctx).1 db.patTab
      (SubTab.stop db.subTab db.subList ctx).2.1 db.queueTab
    cases hlook : db.subTab.lookup ctx.key with
    | none =>
      rw [SubTab.stop_none _ hlook] at hsame ⊢
      exact h.refusedSub (by simp) hsame rfl (baseHashes_congr rfl rfl)
    | some rt =>
      obtain ⟨hbit, hcoll, hleft⟩ := hstop rt hlook
      by_cases hlast : rt.ref.erase (SubRefs.bit ctx.owner) = ∅
      · exact h.finishSub (followsTab_stopLast _ hkv hf hfits hlook hbit hlast (hcoll hlast) hsame)
          db.routeRefs_eq_sub (routeRefs_eq_sub _) (baseHashes_congr rfl rfl)
      · exact h.finishSub (followsTab_stopLeft _ hkv hf hfits hlook hq hbit hlast
          (hleft hlast).2 hsame) db.routeRefs_eq_sub (routeRefs_eq_sub _)
          (baseHashes_congr rfl rfl)
  · cases hfind : QueueSubArray.findTab ctx.queue ctx.queueHash db.queueTab with
    | none =>
      rw [stopSubTab_unknown hq hfind]
      exact h.refusedSub (by simp) (fun _ => rfl) rfl rfl
    | some r =>
      obtain ⟨before, t, after⟩ := r
      have hstop := htab t.subTab (subTabOf_found hq hfind)
      have hbefore := routeRefs_eq_queueSub db before t after (queueRefs_findTab hfind)
      rw [stopSubTab_queue hq hfind]
      cases hlook : t.subTab.lookup ctx.key with
      | none =>
        rw [SubTab.stop_none _ hlook]
        refine h.refusedSub (by simp) (bloomOf_tables db _ _ _ _) ?_ (baseHashes_congr rfl rfl)
        rw [hbefore]
        exact routeRefs_eq_queueSub _ before t after rfl
      | some rt =>
        obtain ⟨hbit, hcoll, hleft⟩ := hstop rt hlook
        by_cases hlast : rt.ref.erase (SubRefs.bit ctx.owner) = ∅
        · exact h.finishSub (followsTab_stopLast _ hkv hf hfits hlook hbit hlast (hcoll hlast)
            (bloomOf_tables db _ _ _ _)) hbefore
            (routeRefs_eq_queueSub _ before { t with subTab := _ } after rfl) (baseHashes_congr rfl rfl)
        · exact absurd (hleft hlast).1 hq

/-! ## Patterns -/

/-- The filter of the kind is added to, for a pattern that starts. -/
def AddsPat (ctx : PatternArgs) : BloomKind → Prop
  | .shared => ctx.queueSub = true ∨ ctx.count.sub = 1
  | .console => ctx.owner = .console ∧ (ctx.queueSub = true ∨ ctx.count.console = 1)
  | .ipc => ctx.owner ≠ .console ∧ (ctx.queueSub = true ∨ ctx.count.ipc = 1)

section Patterns

variable {ctx : PatternArgs} {k : BloomKind}

theorem addBloom_bits (hkv : kv.Counting) (ctx : PatternArgs) (rt : PatRoute) (b : BloomRef) :
    (addBloom kv ctx rt b).bits = ctx.hash ::ₘ b.bits := by
  rw [addBloom]
  split
  · rfl
  · exact hkv.add _ _ _ _

theorem delBloom_bits (hkv : kv.Counting) (ctx : PatternArgs) (rt : PatRoute) (b : BloomRef) :
    (delBloom kv ctx rt b).bits = b.bits.erase ctx.hash := by
  rw [delBloom]
  split
  · rfl
  · exact hkv.del _ _ _ _

theorem updatePatBloom_start (hkv : kv.Counting) (db : SubDB) (ctx : PatternArgs) (rt : PatRoute)
    (hs : ctx.isStart = true) {before after : Bool}
    (hadds : AddsPat ctx k ↔ before = false ∧ after = true) (hmono : before = true → after = true) :
    Follows ctx.hash before after (db.bloomOf k).bits
      ((db.updatePatBloom kv ctx rt).1.bloomOf k).bits := by
  have hadd := addBloom_bits hkv ctx rt
  refine .of_add (fun h => ?_) (fun h => ?_) hadds hmono
  · cases k <;> grind [updatePatBloom, startPatBloom, bloomOf, AddsPat]
  · cases k <;> grind [updatePatBloom, startPatBloom, bloomOf, AddsPat]

theorem updatePatBloom_stop (hkv : kv.Counting) (db : SubDB) (ctx : PatternArgs) (rt : PatRoute)
    (hs : ctx.isStart = false) {before after : Bool}
    (hgoes : Goes ctx.owner ctx.count k ↔ before = true ∧ after = false)
    (hmono : after = true → before = true) :
    Follows ctx.hash before after (db.bloomOf k).bits
      ((db.updatePatBloom kv ctx rt).1.bloomOf k).bits := by
  have hdel := delBloom_bits hkv ctx rt
  refine .of_del (fun h => ?_) (fun h => ?_) hgoes hmono
  · cases k <;> grind [updatePatBloom, stopPatBloom, bloomOf, Goes]
  · cases k <;> grind [updatePatBloom, stopPatBloom, bloomOf, Goes]

theorem addsPat_first (ctx : PatternArgs) (hfits : ctx.owner.Fits)
    (hcount : ctx.count = SubRefs.counts (insert (SubRefs.bit ctx.owner) ∅)) (k : BloomKind) :
    AddsPat ctx k ↔ Comes ctx.owner ctx.count k := by
  obtain ⟨hsub, hconsole, hipc⟩ := counts_first hfits
  rw [← hcount] at hsub hconsole hipc
  cases k <;> grind [AddsPat, Comes]

theorem addsPat_plain (ctx : PatternArgs) (h : ctx.queueSub = false) (k : BloomKind) :
    AddsPat ctx k ↔ Comes ctx.owner ctx.count k := by
  cases k <;> simp [AddsPat, Comes, h]

/-- A pattern that is new. -/
theorem followsTab_startPatNew (hkv : kv.Counting) {t : PatTab} (list : SubList)
    (hf : ctx.Fresh true) (hfits : ctx.owner.Fits) (hlook : t.tab.lookup ctx.key = none)
    {db₁ : SubDB} (hsame : ∀ k, db₁.bloomOf k = db.bloomOf k) {rt : PatRoute}
    (hrt : (t.start kv list ctx).2.2.2.2 = some rt) :
    FollowsTab PatRoute.ref ctx.key t.tab (t.start kv list ctx).1.tab db
      (db₁.updatePatBloom kv (t.start kv list ctx).2.2.1 rt).1 := by
  cases hc : kv.compile ctx.pat ctx.cvt with
  | none =>
    rw [PatTab.start_failed _ hlook hc] at hrt
    cases hrt
  | some d =>
    rw [PatTab.start_new _ hlook hc] at hrt ⊢
    obtain rfl := Option.some.inj hrt
    let ctx' : PatternArgs :=
      { ctx with count := { (SubRefs.init ctx.owner).counts with sub := 1 } }
    have hcount : ctx'.count = SubRefs.counts (insert (SubRefs.bit ctx.owner) ∅) := by
      simp [ctx', SubRefs.init, SubRefs.counts]
    refine .of_insert (Finset.singleton_ne_empty _) fun k => ?_
    rw [refsOf_none hlook, ← hsame]
    refine updatePatBloom_start hkv db₁ ctx' _ hf.1 ?_ fun h => ?_
    · have hcomes := comes_iff hfits (Finset.notMem_empty (SubRefs.bit ctx.owner)) k
      refine (addsPat_first ctx' hfits hcount k).trans ?_
      rw [hcount]
      exact hcomes
    · rw [BloomKind.test_empty] at h
      cases h

/-- A pattern that has a reference of the owner already. -/
theorem followsTab_startPatHeld (kv : Kv) {t : PatTab} (list : SubList) {rt : PatRoute}
    (hlook : t.tab.lookup ctx.key = some rt) (hbit : SubRefs.bit ctx.owner ∈ rt.ref)
    (hsame : ∀ k, db'.bloomOf k = db.bloomOf k) :
    FollowsTab PatRoute.ref ctx.key t.tab (t.start kv list ctx).1.tab db db' := by
  rw [PatTab.start_held _ hlook hbit]
  dsimp only
  split
  · refine ⟨fun k => ?_, rfl, fun rt' hrt => ?_⟩
    · rw [hsame]
      exact .same rfl
    · obtain rfl := Option.some.inj (hlook.symm.trans hrt)
      exact Finset.ne_empty_of_mem hbit
  · refine .of_insert (Finset.ne_empty_of_mem hbit) fun k => ?_
    rw [refsOf_some hlook, hsame]
    exact .same rfl

/-- A pattern that gets one more reference. -/
theorem followsTab_startPatJoin (hkv : kv.Counting) {t : PatTab} (list : SubList)
    (hf : ctx.Fresh true) (hfits : ctx.owner.Fits) {rt : PatRoute} (rt' : PatRoute)
    (hlook : t.tab.lookup ctx.key = some rt) (hbit : SubRefs.bit ctx.owner ∉ rt.ref)
    (hqueue : ctx.queueSub = false) {db₁ : SubDB} (hsame : ∀ k, db₁.bloomOf k = db.bloomOf k) :
    FollowsTab PatRoute.ref ctx.key t.tab (t.start kv list ctx).1.tab db
      (db₁.updatePatBloom kv (t.start kv list ctx).2.2.1 rt').1 := by
  rw [PatTab.start_join _ hlook hbit]
  refine .of_insert (Finset.insert_ne_empty _ _) fun k => ?_
  rw [refsOf_some hlook, ← hsame]
  let ctx' : PatternArgs := { ctx with
    count := SubRefs.counts (insert (SubRefs.bit ctx.owner) rt.ref)
    seqno := rt.startSeqno }
  refine updatePatBloom_start hkv db₁ ctx' _ hf.1 ?_ (test_mono_insert hfits)
  exact (addsPat_plain ctx' hqueue k).trans (comes_iff hfits hbit k)

/-- A pattern whose last reference goes; its route is removed afterwards. -/
theorem followsTab_stopPatLast (hkv : kv.Counting) {t : PatTab} (hf : ctx.Fresh false)
    (hfits : ctx.owner.Fits) {rt : PatRoute} (rt' : PatRoute)
    (hlook : t.tab.lookup ctx.key = some rt)
    (hbit : SubRefs.bit ctx.owner ∈ rt.ref) (hlast : rt.ref.erase (SubRefs.bit ctx.owner) = ∅)
    {db₁ : SubDB} (hsame : ∀ k, db₁.bloomOf k = db.bloomOf k) :
    FollowsTab PatRoute.ref ctx.key t.tab ((t.stop ctx).1.tab.erase ctx.key) db
      (db₁.updatePatBloom kv (t.stop ctx).2.1 rt').1 := by
  rw [PatTab.stop_last hlook hbit hlast]
  refine .of_erase (erase_insert_entries _) fun k => ?_
  rw [refsOf_some hlook, ← hsame]
  refine updatePatBloom_stop hkv db₁ { ctx with count := ⟨0, 0, 0⟩ } _ hf.1 ?_ fun h => ?_
  · have hgoes := goes_iff hfits hbit k
    rw [hlast, BloomKind.test_empty] at hgoes
    exact hgoes
  · cases h

/-- A pattern that keeps a reference. -/
theorem followsTab_stopPatLeft (hkv : kv.Counting) {t : PatTab} (hf : ctx.Fresh false)
    (hfits : ctx.owner.Fits) {rt : PatRoute} (rt' : PatRoute)
    (hlook : t.tab.lookup ctx.key = some rt)
    (hbit : SubRefs.bit ctx.owner ∈ rt.ref) (hleft : rt.ref.erase (SubRefs.bit ctx.owner) ≠ ∅)
    {db₁ : SubDB} (hsame : ∀ k, db₁.bloomOf k = db.bloomOf k) :
    FollowsTab PatRoute.ref ctx.key t.tab (t.stop ctx).1.tab db
      (db₁.updatePatBloom kv (t.stop ctx).2.1 rt').1 := by
  rw [PatTab.stop_left hlook hbit hleft]
  refine .of_insert hleft fun k => ?_
  rw [refsOf_some hlook, ← hsame]
  let ctx' : PatternArgs := { ctx with
    count := SubRefs.counts (rt.ref.erase (SubRefs.bit ctx.owner))
    seqno := rt.startSeqno }
  exact updatePatBloom_stop hkv db₁ ctx' _ hf.1 (goes_iff hfits hbit k)
    (test_mono_erase hfits hbit)

end Patterns

/-! ### The calls for patterns -/

section PatCalls

variable {ctx ctx₁ : PatternArgs} {db₁ : SubDB} {status : SubStatus} {rt : PatRoute}

theorem updatePatBloom_baseHashes (kv : Kv) (db : SubDB) (ctx : PatternArgs) (rt : PatRoute) :
    (db.updatePatBloom kv ctx rt).1.baseHashes = db.baseHashes := by
  simp only [updatePatBloom, startPatBloom, stopPatBloom]
  split_ifs <;> exact baseHashes_congr rfl rfl

/-- A pattern whose start was not refused. -/
theorem psubStart_some (h : db.startPatTab kv ctx = (db₁, ctx₁, status, some rt))
    (hst : status = .ok ∨ status = .updated) :
    (∀ k, (db.psubStart kv ctx).db.bloomOf k = (db₁.updatePatBloom kv ctx₁ rt).1.bloomOf k) ∧
      (db.psubStart kv ctx).db.routeRefs = db₁.routeRefs ∧
      (db.psubStart kv ctx).db.baseHashes = db₁.baseHashes := by
  have hroutes := (psubStart_spec kv db ctx).1.routeRefs
  rw [h] at hroutes
  have hbase := updatePatBloom_baseHashes kv db₁ ctx₁ rt
  refine ⟨fun k => ?_, hroutes, ?_⟩
  · rw [psubStart, h]
    simp only [if_pos hst]
    split
    · cases k <;> rfl
    · rfl
  · rw [psubStart, h]
    simp only [if_pos hst]
    split
    · exact hbase
    · exact hbase

theorem psubStart_refused (h : db.startPatTab kv ctx = (db₁, ctx₁, status, some rt))
    (hst : ¬ (status = .ok ∨ status = .updated)) : (db.psubStart kv ctx).db = db₁ := by
  rw [psubStart, h]
  simp only [if_neg hst]

theorem psubStart_none (h : db.startPatTab kv ctx = (db₁, ctx₁, status, none)) :
    (db.psubStart kv ctx).db = db₁ := by
  rw [psubStart, h]

theorem startPatTab_plain (kv : Kv) (db : SubDB) (hq : ctx.queueHash = 0) :
    db.startPatTab kv ctx =
      ({ db with
          patTab := (db.patTab.start kv db.subList ctx).1
          subList := (db.patTab.start kv db.subList ctx).2.1 },
        (db.patTab.start kv db.subList ctx).2.2) :=
  if_pos hq

theorem startPatTab_unknown (hq : ctx.queueHash ≠ 0)
    (hf : QueueSubArray.findTab ctx.queue ctx.queueHash db.queueTab = none) :
    db.startPatTab kv ctx = (db, ctx, .error, none) := by
  rw [startPatTab, if_neg hq, QueueSubArray.startPat, hf]

theorem startPatTab_queue (kv : Kv) (hq : ctx.queueHash ≠ 0) {before after : List QueueSubTab}
    {t : QueueSubTab}
    (hf : QueueSubArray.findTab ctx.queue ctx.queueHash db.queueTab = some (before, t, after)) :
    db.startPatTab kv ctx =
      ({ db with
          queueTab := before ++ { t with patTab := (t.patTab.start kv db.subList ctx).1 } :: after
          subList := (t.patTab.start kv db.subList ctx).2.1 },
        (t.patTab.start kv db.subList ctx).2.2.1,
        QueueSubArray.queueStatus (t.patTab.start kv db.subList ctx).2.2.2.1,
        (t.patTab.start kv db.subList ctx).2.2.2.2) := by
  rw [startPatTab, if_neg hq, QueueSubArray.startPat, hf]

end PatCalls

/-- A pattern that is new to its table, plain or of a queue. -/
theorem BloomInv.psubStartNew (h : db.BloomInv) (hkv : kv.Counting) {ctx : PatternArgs}
    (hf : ctx.Fresh true) (hfits : ctx.owner.Fits) {t : PatTab} {list : SubList} {db₁ : SubDB}
    (hlook : t.tab.lookup ctx.key = none)
    (hstart : db.startPatTab kv ctx = (db₁, (t.start kv list ctx).2.2))
    (hsame : ∀ k, db₁.bloomOf k = db.bloomOf k) (hbase : db₁.baseHashes = db.baseHashes)
    {rest : Multiset (UInt32 × SubRefs)}
    (hbefore : db.routeRefs = tabRefs PatRoute.ref t.tab + rest)
    (hafter : db₁.routeRefs = tabRefs PatRoute.ref (t.start kv list ctx).1.tab + rest) :
    (db.psubStart kv ctx).db.BloomInv := by
  cases hc : kv.compile ctx.pat ctx.cvt with
  | none =>
    rw [PatTab.start_failed _ hlook hc] at hstart hafter
    rw [psubStart_none hstart]
    exact h.same (fun k => by rw [hsame]) (hafter.trans hbefore.symm) hbase
  | some d =>
    have hnew := PatTab.start_new list hlook hc
    have hfollows := followsTab_startPatNew hkv list hf hfits hlook hsame
      (congrArg (fun r => r.2.2.2.2) hnew)
    rw [hnew] at hstart hafter hfollows
    obtain ⟨hblooms, hroutes, hbase'⟩ := psubStart_some hstart (.inl rfl)
    refine h.follows ⟨fun k => ?_, hfollows.others, hfollows.nonempty⟩ hbefore
      (hroutes.trans hafter) (hbase'.trans hbase)
    rw [hblooms]
    exact hfollows.blooms k

/-- A pattern that is in `pat_tab`. -/
theorem BloomInv.psubStartOld (h : db.BloomInv) (hkv : kv.Counting) {ctx : PatternArgs}
    (hf : ctx.Fresh true) (hfits : ctx.owner.Fits) (hq : ctx.queueHash = 0)
    (hqueue : ctx.queueSub = false) {rt : PatRoute}
    (hlook : db.patTab.tab.lookup ctx.key = some rt) : (db.psubStart kv ctx).db.BloomInv := by
  have hstart := startPatTab_plain kv db hq
  have hsame := bloomOf_tables db db.subTab (db.patTab.start kv db.subList ctx).1
    (db.patTab.start kv db.subList ctx).2.1 db.queueTab
  by_cases hbit : SubRefs.bit ctx.owner ∈ rt.ref
  · have hfollows := followsTab_startPatHeld kv db.subList hlook hbit hsame
    rw [PatTab.start_held _ hlook hbit] at hstart hfollows
    rw [psubStart_refused hstart (by simp)]
    exact h.follows hfollows db.routeRefs_eq_pat (routeRefs_eq_pat _) (baseHashes_congr rfl rfl)
  · have hjoin : db.patTab.start kv db.subList ctx = _ :=
      PatTab.start_join db.subList hlook hbit
    have hfollows := fun rt' => followsTab_startPatJoin hkv db.subList hf hfits rt' hlook
      hbit hqueue hsame
    rw [hjoin] at hstart hfollows
    obtain ⟨hblooms, hroutes, hbase⟩ := psubStart_some hstart (.inr rfl)
    refine h.follows ⟨fun k => ?_, (hfollows rt).others, (hfollows rt).nonempty⟩
      db.routeRefs_eq_pat (hroutes.trans (routeRefs_eq_pat _))
      (hbase.trans (baseHashes_congr rfl rfl))
    rw [hblooms]
    exact (hfollows _).blooms k

theorem BloomInv.psubStart (h : db.BloomInv) (hkv : kv.Counting) {ctx : PatternArgs}
    (hf : ctx.Fresh true) (hs : SoundCall db (.psubStart ctx)) :
    (db.psubStart kv ctx).db.BloomInv := by
  obtain ⟨hfits, htab⟩ := hs
  by_cases hq : ctx.queueHash = 0
  · cases hlook : db.patTab.tab.lookup ctx.key with
    | none =>
      exact h.psubStartNew hkv hf hfits hlook (startPatTab_plain kv db hq) (bloomOf_tables db _ _ _ _)
        (baseHashes_congr rfl rfl) db.routeRefs_eq_pat (routeRefs_eq_pat _)
    | some rt =>
      exact h.psubStartOld hkv hf hfits hq (htab db.patTab (if_pos hq) rt hlook).2 hlook
  · cases hfind : QueueSubArray.findTab ctx.queue ctx.queueHash db.queueTab with
    | none =>
      rw [psubStart_none (startPatTab_unknown hq hfind)]
      exact h
    | some r =>
      obtain ⟨before, t, after⟩ := r
      cases hlook : t.patTab.tab.lookup ctx.key with
      | none =>
        have hstart := startPatTab_queue kv hq hfind
        have hstatus : QueueSubArray.queueStatus
            (t.patTab.start kv db.subList ctx).2.2.2.1 =
              (t.patTab.start kv db.subList ctx).2.2.2.1 := by
          cases hc : kv.compile ctx.pat ctx.cvt with
          | none =>
            rw [PatTab.start_failed _ hlook hc]
            rfl
          | some d =>
            rw [PatTab.start_new _ hlook hc]
            rfl
        rw [hstatus] at hstart
        exact h.psubStartNew hkv hf hfits hlook hstart (bloomOf_tables db _ _ _ _)
          (baseHashes_congr rfl rfl)
          (routeRefs_eq_queuePat db before t after (queueRefs_findTab hfind))
          (routeRefs_eq_queuePat _ before { t with patTab := _ } after rfl)
      | some rt => exact absurd (htab t.patTab (patTabOf_found hq hfind) rt hlook).1 hq

/-! ### The end of a pattern -/

section PatStop

variable {ctx ctx₁ : PatternArgs} {db₁ : SubDB} {status : SubStatus} {rt : PatRoute}

theorem psubStop_none (h : db.stopPatTab ctx = (db₁, ctx₁, status, none)) :
    (db.psubStop kv ctx).db = db₁ := by
  rw [psubStop, h]

theorem removePatTab_bloomOf (db : SubDB) (ctx : PatternArgs) (rt : PatRoute) (k : BloomKind) :
    (db.removePatTab ctx rt).bloomOf k = db.bloomOf k := by
  rw [removePatTab]
  split
  · exact bloomOf_tables db _ _ _ _ k
  · exact bloomOf_tables db _ _ _ _ k

theorem removePatTab_baseHashes (db : SubDB) (ctx : PatternArgs) (rt : PatRoute) :
    (db.removePatTab ctx rt).baseHashes = db.baseHashes := by
  rw [removePatTab]
  split <;> exact baseHashes_congr rfl rfl

/-- The database when `psub_stop` has told the peers. -/
theorem psubStop_eq (kv : Kv) (h : db.stopPatTab ctx = (db₁, ctx₁, status, some rt)) :
    ∃ db₂, (db.psubStop kv ctx).db = (if status = .ok then db₂.removePatTab ctx₁ rt else db₂) ∧
      (∀ k, db₂.bloomOf k = (db₁.updatePatBloom kv ctx₁ rt).1.bloomOf k) ∧
      SameRoutes db₁ db₂ ∧ db₂.baseHashes = db₁.baseHashes := by
  obtain ⟨hsame, -, -⟩ := sameRoutes_updatePatBloom kv db₁ ctx₁ rt
  have hbase := updatePatBloom_baseHashes kv db₁ ctx₁ rt
  rw [psubStop, h]
  dsimp only
  refine ⟨_, apply_ite Result.db _ _ _, fun k => ?_, ?_, ?_⟩
  · split
    · cases k <;> rfl
    · rfl
  · split
    · exact ⟨hsame.1, hsame.2, hsame.3, hsame.4⟩
    · exact hsame
  · split
    · exact hbase
    · exact hbase

end PatStop

theorem stopPatTab_plain (db : SubDB) {ctx : PatternArgs} (hq : ctx.queueHash = 0) :
    db.stopPatTab ctx =
      ({ db with patTab := (db.patTab.stop ctx).1 }, (db.patTab.stop ctx).2) :=
  if_pos hq

theorem stopPatTab_unknown {ctx : PatternArgs} (hq : ctx.queueHash ≠ 0)
    (hf : QueueSubArray.findTab ctx.queue ctx.queueHash db.queueTab = none) :
    db.stopPatTab ctx = (db, ctx, .notFound, none) := by
  rw [stopPatTab, if_neg hq, QueueSubArray.stopPat, hf]

theorem stopPatTab_queue {ctx : PatternArgs} (hq : ctx.queueHash ≠ 0)
    {before after : List QueueSubTab} {t : QueueSubTab}
    (hf : QueueSubArray.findTab ctx.queue ctx.queueHash db.queueTab = some (before, t, after)) :
    db.stopPatTab ctx =
      ({ db with queueTab := before ++ { t with patTab := (t.patTab.stop ctx).1 } :: after },
        (t.patTab.stop ctx).2) := by
  rw [stopPatTab, if_neg hq, QueueSubArray.stopPat, hf]

/-- A pattern that loses a reference, and its route with the last one. -/
theorem BloomInv.psubStopHeld (h : db.BloomInv) (hkv : kv.Counting) {ctx : PatternArgs}
    (hf : ctx.Fresh false) (hfits : ctx.owner.Fits) {t : PatTab} {db₁ : SubDB} {rt : PatRoute}
    (hlook : t.tab.lookup ctx.key = some rt) (hbit : SubRefs.bit ctx.owner ∈ rt.ref)
    (hstop : db.stopPatTab ctx = (db₁, (t.stop ctx).2))
    (hsame : ∀ k, db₁.bloomOf k = db.bloomOf k) (hbase : db₁.baseHashes = db.baseHashes)
    {rest : Multiset (UInt32 × SubRefs)}
    (hbefore : db.routeRefs = tabRefs PatRoute.ref t.tab + rest)
    (hafter : db₁.routeRefs = tabRefs PatRoute.ref (t.stop ctx).1.tab + rest)
    (hremove : ∀ db₂ rt', SameRoutes db₁ db₂ →
      (db₂.removePatTab (t.stop ctx).2.1 rt').routeRefs =
        tabRefs PatRoute.ref ((t.stop ctx).1.tab.erase ctx.key) + rest) :
    (db.psubStop kv ctx).db.BloomInv := by
  by_cases hlast : rt.ref.erase (SubRefs.bit ctx.owner) = ∅
  · have hfollows := fun rt' => followsTab_stopPatLast hkv hf hfits rt' hlook hbit hlast
      hsame
    rw [PatTab.stop_last hlook hbit hlast] at hstop hremove hfollows
    obtain ⟨db₂, hdb, hblooms, hroutes, hbase'⟩ := psubStop_eq kv hstop
    rw [hdb, if_pos rfl]
    refine h.follows ⟨fun k => ?_, (hfollows rt).others, (hfollows rt).nonempty⟩ hbefore
      (hremove db₂ _ hroutes) ?_
    · rw [removePatTab_bloomOf, hblooms]
      exact (hfollows _).blooms k
    · rw [removePatTab_baseHashes, hbase', hbase]
  · have hfollows := fun rt' => followsTab_stopPatLeft hkv hf hfits rt' hlook hbit hlast
      hsame
    rw [PatTab.stop_left hlook hbit hlast] at hstop hafter hfollows
    obtain ⟨db₂, hdb, hblooms, hroutes, hbase'⟩ := psubStop_eq kv hstop
    rw [hdb, if_neg (by simp)]
    refine h.follows ⟨fun k => ?_, (hfollows rt).others, (hfollows rt).nonempty⟩ hbefore
      (hroutes.routeRefs.trans hafter) (hbase'.trans hbase)
    rw [hblooms]
    exact (hfollows _).blooms k

theorem BloomInv.psubStop (h : db.BloomInv) (hkv : kv.Counting) {ctx : PatternArgs}
    (hf : ctx.Fresh false) (hs : SoundCall db (.psubStop ctx)) :
    (db.psubStop kv ctx).db.BloomInv := by
  obtain ⟨hfits, htab⟩ := hs
  by_cases hq : ctx.queueHash = 0
  · have hstop := stopPatTab_plain db hq
    cases hlook : db.patTab.tab.lookup ctx.key with
    | none =>
      rw [PatTab.stop_none hlook] at hstop
      rw [psubStop_none hstop]
      exact h
    | some rt =>
      obtain ⟨-, hhash, -⟩ := PatTab.stop_ctx db.patTab ctx
      refine h.psubStopHeld hkv hf hfits hlook (htab db.patTab (if_pos hq) rt hlook) hstop
        (bloomOf_tables db _ _ _ _) (baseHashes_congr rfl rfl) db.routeRefs_eq_pat
        (routeRefs_eq_pat _) fun db₂ rt' hroutes => ?_
      rw [removePatTab, if_pos (hhash.trans hq), routeRefs_eq_pat]
      simp only [PatTab.remove, hroutes.subTab, hroutes.patTab, hroutes.queueTab,
        (PatTab.stop_ctx db.patTab ctx).1]
  · cases hfind : QueueSubArray.findTab ctx.queue ctx.queueHash db.queueTab with
    | none =>
      rw [psubStop_none (stopPatTab_unknown hq hfind)]
      exact h
    | some r =>
      obtain ⟨before, t, after⟩ := r
      have hstop := stopPatTab_queue hq hfind
      have hbefore := routeRefs_eq_queuePat db before t after (queueRefs_findTab hfind)
      cases hlook : t.patTab.tab.lookup ctx.key with
      | none =>
        rw [PatTab.stop_none hlook] at hstop
        rw [psubStop_none hstop]
        refine h.same (fun k => by cases k <;> rfl) ?_ (baseHashes_congr rfl rfl)
        rw [hbefore]
        exact routeRefs_eq_queuePat _ before t after rfl
      | some rt =>
        obtain ⟨hkey, hhash, hname⟩ := PatTab.stop_ctx t.patTab ctx
        refine h.psubStopHeld hkv hf hfits hlook
          (htab t.patTab (patTabOf_found hq hfind) rt hlook) hstop
          (bloomOf_tables db _ _ _ _) (baseHashes_congr rfl rfl) hbefore
          (routeRefs_eq_queuePat _ before { t with patTab := _ } after rfl)
          fun db₂ rt' hroutes => ?_
        -- the table of the queue is found again
        have hagain : QueueSubArray.findTab (t.patTab.stop ctx).2.1.queue
            (t.patTab.stop ctx).2.1.queueHash db₂.queueTab =
              some (before, { t with patTab := (t.patTab.stop ctx).1 }, after) := by
          rw [hname, hhash, hroutes.queueTab]
          exact findTab_again hfind _ rfl rfl
        have hneq : (t.patTab.stop ctx).2.1.queueHash ≠ 0 := fun h0 => hq (hhash ▸ h0)
        rw [removePatTab, if_neg hneq, QueueSubArray.removePat, hagain]
        refine (routeRefs_eq_queuePat _ before { t with patTab := _ } after rfl).trans ?_
        simp only [PatTab.remove, hroutes.subTab, hroutes.patTab, hkey]

/-! ## Runs -/

theorem BloomInv.resizeBloom (h : db.BloomInv) (bloom console ipc : Bool) :
    (db.resizeBloom bloom console ipc).BloomInv := by
  refine h.same (fun k => ?_) rfl rfl
  have hindex := h.index k
  cases k with
  | shared =>
    cases bloom with
    | true => exact hindex.symm
    | false => rfl
  | console =>
    cases console with
    | true => exact hindex.symm
    | false => rfl
  | ipc =>
    cases ipc with
    | true => exact hindex.symm
    | false => rfl

/-- A step that the filters can follow. -/
def KeepsBlooms (kv : Kv) (db : SubDB) (e : Event) : Prop := SoundCall db (db.call kv e)

theorem BloomInv.step (h : db.BloomInv) (hkv : kv.Counting) {e : Event}
    (hk : KeepsBlooms kv db e) : (db.step kv e).BloomInv := by
  have hfresh := call_fresh kv db e
  rw [SubDB.step]
  rw [KeepsBlooms] at hk
  cases hc : db.call kv e with
  | subStart ctx mem =>
    rw [hc] at hk hfresh
    exact h.subStart hkv hfresh hk
  | subStop ctx =>
    rw [hc] at hk hfresh
    exact h.subStop hkv hfresh hk
  | psubStart ctx =>
    rw [hc] at hk hfresh
    exact h.psubStart hkv hfresh hk
  | psubStop ctx =>
    rw [hc] at hk hfresh
    exact h.psubStop hkv hfresh hk
  | resizeBloom bloom console ipc => exact h.resizeBloom bloom console ipc
  | none => exact h

theorem bloomInv_init (ibxLen : ℕ) (ibxHash : UInt32) (mchLen : ℕ) (mchHash : UInt32) :
    (init ibxLen ibxHash mchLen mchHash).BloomInv := by
  have hroutes : (init ibxLen ibxHash mchLen mchHash).routeRefs = 0 := rfl
  refine ⟨fun k => ?_, fun e he => ?_⟩
  · rw [indexOf_eq, hroutes]
    cases k with
    | shared => exact Multiset.pair_comm mchHash ibxHash
    | console => rfl
    | ipc => rfl
  · rw [hroutes] at he
    simp at he

theorem BloomKind.mem_hashes {k : BloomKind} {routes : Multiset (UInt32 × SubRefs)} {x : UInt32} :
    x ∈ k.hashes routes ↔ ∃ refs, (x, refs) ∈ routes ∧ k.test refs = true := by
  simp [BloomKind.hashes]

/-- **The filters tell the routes.** In every state of every run whose steps the
filters can follow, a hash is in the shared filter if and only if a route has it,
the inbox and the multicast prefix aside, it is in the console or ipc filter if and
only if such a route has a reference of that kind, and `index_bloom` gives the same
hashes. -/
theorem blooms_tell_routes (kv : Kv) (hkv : kv.Counting) {ibxLen mchLen : ℕ}
    {ibxHash mchHash : UInt32}
    (h : Run.Reach (step kv) (KeepsBlooms kv) (init ibxLen ibxHash mchLen mchHash) db) :
    (∀ x, x ∈ db.bloom.bits ↔
      (x = db.ibxHash ∨ x = db.mchHash) ∨ ∃ refs, (x, refs) ∈ db.routeRefs) ∧
    (∀ x, x ∈ db.console.bits ↔ ∃ refs, (x, refs) ∈ db.routeRefs ∧ refs.hasConsole = true) ∧
    (∀ x, x ∈ db.ipc.bits ↔ ∃ refs, (x, refs) ∈ db.routeRefs ∧ refs.hasIpc = true) ∧
    ∀ k x, x ∈ db.indexOf k ↔ x ∈ (db.bloomOf k).bits := by
  have hinv : db.BloomInv := h.invariant (bloomInv_init ibxLen ibxHash mchLen mchHash)
    fun s e hs hk => hs.step hkv hk
  have hmem : ∀ k x, x ∈ (db.bloomOf k).bits ↔ x ∈ db.baseHashes k ∨
      ∃ refs, (x, refs) ∈ db.routeRefs ∧ k.test refs = true := by
    intro k x
    rw [hinv.index, indexOf_eq, Multiset.mem_add, BloomKind.mem_hashes]
  refine ⟨fun x => ?_, fun x => ?_, fun x => ?_, fun k x => by rw [hinv.index]⟩
  · refine (hmem .shared x).trans (or_congr (by simp [baseHashes]) ?_)
    refine exists_congr fun refs => and_iff_left_of_imp fun he => ?_
    exact BloomKind.test_shared.2 (hinv.nonempty _ he)
  · refine (hmem .console x).trans ?_
    simp [baseHashes, BloomKind.test, BloomKind.flags, testRefs]
  · refine (hmem .ipc x).trans ?_
    simp [baseHashes, BloomKind.test, BloomKind.flags, testRefs]

theorem prefixKv_counting : prefixKv.Counting := ⟨fun _ _ _ _ => rfl, fun _ _ _ _ => rfl⟩

/-- Two transports start a subject, one of them a pattern and a subject of a queue,
and the other one stops the subject. -/
theorem blooms_tell_routes_twoTransports :
    let db := [.ipcSubStart [65] 7 0 ∅, .ipcSubStart [65] 7 1 ∅, .ipcPsubStart [65, 46, 62] ⟨0, 2⟩ 9 1,
      .queueSubUpdate [66] 8 1 [81] 5 1 ∅, .ipcSubStop [65] 7 0].foldl (step prefixKv)
      (init 10 1 11 2)
    (∀ x, x ∈ db.bloom.bits ↔
      (x = db.ibxHash ∨ x = db.mchHash) ∨ ∃ refs, (x, refs) ∈ db.routeRefs) ∧
    (∀ x, x ∈ db.console.bits ↔ ∃ refs, (x, refs) ∈ db.routeRefs ∧ refs.hasConsole = true) ∧
    (∀ x, x ∈ db.ipc.bits ↔ ∃ refs, (x, refs) ∈ db.routeRefs ∧ refs.hasIpc = true) ∧
    ∀ k x, x ∈ db.indexOf k ↔ x ∈ (db.bloomOf k).bits := by
  refine blooms_tell_routes prefixKv prefixKv_counting
    (Run.Reach.foldl .start ⟨?_, ?_, ?_, ?_, ?_, trivial⟩)
  · refine ⟨by decide, fun tab htab => ⟨fun _ _ => .inr rfl, fun rt hrt => ?_⟩⟩
    obtain rfl := Option.some.inj htab
    cases hrt
  · refine ⟨by decide, fun tab htab => ⟨fun _ _ => .inr rfl, fun rt hrt => ?_⟩⟩
    obtain rfl := Option.some.inj htab
    obtain rfl := Option.some.inj hrt
    exact ⟨rfl, by decide⟩
  · exact ⟨by decide, fun t ht rt hrt => ⟨rfl, rfl⟩⟩
  · refine ⟨by decide, fun tab htab => ⟨fun _ hq => absurd hq (by decide), fun rt hrt => ?_⟩⟩
    obtain rfl := Option.some.inj htab
    cases hrt
  · refine ⟨by decide, fun tab htab rt hrt => ?_⟩
    obtain rfl := Option.some.inj htab
    obtain rfl := Option.some.inj hrt
    exact ⟨by decide, by decide, by decide⟩

/-- The console joins a subject that a transport has: the console filter does not
get its hash. -/
theorem console_joins_ipc_subject :
    let db := [.ipcSubStart [65] 0 0 ∅, .consoleSubStart [65] none ∅].foldl (step prefixKv)
      (init 10 3 11 4)
    (1, {0, 1}) ∈ db.routeRefs ∧ db.console.bits = 0 ∧
      ¬ ∀ x, x ∈ db.console.bits ↔ ∃ refs, (x, refs) ∈ db.routeRefs ∧ refs.hasConsole = true := by
  intro db
  have hroute : (1, {0, 1}) ∈ db.routeRefs := by decide
  have hbits : db.console.bits = 0 := by decide
  refine ⟨hroute, hbits, fun h => ?_⟩
  have hmem := (h 1).2 ⟨{0, 1}, hroute, by decide⟩
  rw [hbits] at hmem
  simp at hmem

end SubDB

end Raims
