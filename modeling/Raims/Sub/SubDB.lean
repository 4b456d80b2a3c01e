import Raims.Sub.SubList
import Raims.Lib.FiniteMap
import Mathlib.Algebra.BigOperators.Group.List.Basic
import Mathlib.Algebra.Order.Group.Multiset
import Mathlib.Data.Finset.Card

/-!
# Subscriptions of a node (`SubDB`)

The subjects and the patterns that the console, the ipc transports and queue
groups of this node are subscribed to: the route tables, the log `sub_list` that
replays them to peers, the three blooms, and the messages that tell the peers of
a change. `RouteVec` is a finite map, `BloomRef` a counting filter; what else of
raikv and pcre2 has a say is a parameter (`Kv`).
-/

namespace Raims

abbrev Subject := List UInt8

/-! ## Blooms -/

/-- `kv::BloomRef`: the number of routes by prefix length, and the hashes added,
with their count. -/
structure BloomRef where
  prefCount : ℕ → ℕ
  bits : Multiset UInt32

/-- Not a prefix length: the routes of whole subjects. -/
def SUB_RTE : ℕ := 64

namespace BloomRef

def empty : BloomRef := ⟨fun _ => 0, 0⟩

variable (b : BloomRef) (prefixLen : ℕ) (hash : UInt32)

def addRoute : BloomRef :=
  ⟨Function.update b.prefCount prefixLen (b.prefCount prefixLen + 1), hash ::ₘ b.bits⟩

def delRoute : BloomRef :=
  ⟨Function.update b.prefCount prefixLen (b.prefCount prefixLen - 1), b.bits.erase hash⟩

def add : BloomRef := b.addRoute SUB_RTE hash

def del : BloomRef := b.delRoute SUB_RTE hash

end BloomRef

/-- `kv::QueueMatch`. -/
structure QueueMatch where
  qhash : UInt32
  refcnt : ℕ
  hash2 : UInt32

/-- What a pattern adds to the hash of its prefix. -/
inductive PatternDetail where
  | noDetail | suffixMatch | shardMatch

/-- `kv::BloomDetail`. -/
inductive BloomDetail where
  | pattern (d : PatternDetail)
  | queueMatch (m : QueueMatch)

/-- `kv::PatternCvt`: the result of a pattern's conversion. -/
structure PatternCvt where
  fmt : ℕ
  prefixLen : ℕ

/-- The functions of raikv and pcre2 that the code relies on. -/
structure Kv where
  /-- `BloomRef::add_queue_route` -/
  addQueueRoute : BloomRef → ℕ → UInt32 → QueueMatch → BloomRef
  /-- `BloomRef::del_queue_route` -/
  delQueueRoute : BloomRef → ℕ → UInt32 → QueueMatch → BloomRef
  /-- `QueueMatch::hash2` -/
  hash2 : Subject → ℕ → UInt32 → UInt32
  /-- `kv_crc_c` of a subject -/
  subjectHash : Subject → UInt32
  /-- `kv_crc_c` of a prefix, with the seed of its length -/
  prefixHash : Subject → ℕ → UInt32
  /-- `PatternCvt::convert_rv`, `convert_glob` -/
  convert : Subject → ℕ → Option PatternCvt
  /-- the pattern compiles, and `BloomDetail::from_pattern` -/
  compile : Subject → PatternCvt → Option PatternDetail

/-! ## References -/

/-- Who subscribes: `CONSOLE_SUB`, or `IPC_SUB` with a transport. -/
inductive Owner where
  | console
  | ipc (tportId : ℕ)
deriving DecidableEq

/-- `SubRefs`: the bits that are set in `refs`. -/
abbrev SubRefs := Finset ℕ

/-- The counts of references that `SubArgs` and `PatternArgs` carry. -/
structure RefCounts where
  sub : ℕ
  console : ℕ
  ipc : ℕ

namespace SubRefs

/-- The bit of an owner in a word of 32 bits. A shift by more is not defined; the
hardware takes it modulo 32. -/
def bit : Owner → ℕ
  | .console => 0
  | .ipc tportId => (tportId + 1) % 32

def init (owner : Owner) : SubRefs := {bit owner}

variable (refs : SubRefs)

def hasConsole : Bool := 0 ∈ refs

def hasIpc : Bool := refs.erase 0 ≠ ∅

/-- `ref_count`, `console_count` and `ipc_count`. -/
def counts : RefCounts :=
  ⟨refs.card, if 0 ∈ refs then 1 else 0, (refs.erase 0).card⟩

end SubRefs

/-! ## Subjects -/

inductive SubStatus where
  | ok | alreadyExists | updated | notFound | error
deriving DecidableEq

/-- `SubArgs`. -/
structure SubArgs where
  sub : Subject
  queue : Subject
  cb : Option ℕ
  seqno : ℕ
  owner : Owner
  isStart : Bool
  hash : UInt32
  queueHash : UInt32
  queueRefs : ℕ
  count : RefCounts
  coll : RefCounts
  bloomUpdated : Bool

/-- `SubArgs()`. -/
def SubArgs.new (sub : Subject) (cb : Option ℕ) (seqno : ℕ) (owner : Owner) (isStart : Bool)
    (hash : UInt32) : SubArgs :=
  ⟨sub, [], cb, seqno, owner, isStart, hash, 0, 0, ⟨0, 0, 0⟩, ⟨0, 0, 0⟩, false⟩

/-- `SubRoute`; its hash is in the key. -/
structure SubRoute where
  startSeqno : ℕ
  onData : Option ℕ
  ref : SubRefs

/-- The key of a route: a hash and the subject or pattern. -/
structure RouteKey where
  hash : UInt32
  value : Subject
deriving DecidableEq

/-- `kv::RouteVec`. -/
abbrev RouteVec (α : Type) := AList fun _ : RouteKey => α

def SubArgs.key (ctx : SubArgs) : RouteKey := ⟨ctx.hash, ctx.sub⟩

namespace SubRoute

/-- `SubRoute::start`. -/
def start (ctx : SubArgs) : SubRoute × SubArgs :=
  let ref := SubRefs.init ctx.owner
  (⟨ctx.seqno, ctx.cb, ref⟩, { ctx with count := { ref.counts with sub := 1 } })

/-- `SubRoute::add`, false if the owner has a reference already. -/
def add (rt : SubRoute) (ctx : SubArgs) : SubRoute × SubArgs × Bool :=
  if SubRefs.bit ctx.owner ∈ rt.ref then (rt, ctx, false)
  else
    let ref := insert (SubRefs.bit ctx.owner) rt.ref
    ({ rt with ref := ref, onData := if ctx.owner = .console then ctx.cb else rt.onData },
      { ctx with count := SubRefs.counts ref, seqno := rt.startSeqno }, true)

/-- `SubRoute::rem`, true if no reference is left. An owner without a reference
leaves the counts of `ctx` as they are. -/
def rem (rt : SubRoute) (ctx : SubArgs) : SubRoute × SubArgs × Bool :=
  if SubRefs.bit ctx.owner ∉ rt.ref then (rt, ctx, false)
  else
    let ref := rt.ref.erase (SubRefs.bit ctx.owner)
    let rt' := { rt with ref := ref, onData := if ctx.owner = .console then none else rt.onData }
    let ctx := { ctx with count := SubRefs.counts ref }
    if ref.card = 0 then (rt', ctx, true)
    else (rt', { ctx with seqno := rt.startSeqno }, false)

section

variable (rt : SubRoute) (ctx : SubArgs)

theorem add_held (h : SubRefs.bit ctx.owner ∈ rt.ref) : rt.add ctx = (rt, ctx, false) :=
  if_pos h

theorem add_new (h : SubRefs.bit ctx.owner ∉ rt.ref) :
    rt.add ctx =
      ({ rt with
          ref := insert (SubRefs.bit ctx.owner) rt.ref
          onData := if ctx.owner = .console then ctx.cb else rt.onData },
        { ctx with
          count := SubRefs.counts (insert (SubRefs.bit ctx.owner) rt.ref)
          seqno := rt.startSeqno }, true) :=
  if_neg h

theorem rem_absent (h : SubRefs.bit ctx.owner ∉ rt.ref) : rt.rem ctx = (rt, ctx, false) :=
  if_pos h

theorem rem_last (h : SubRefs.bit ctx.owner ∈ rt.ref)
    (hlast : rt.ref.erase (SubRefs.bit ctx.owner) = ∅) :
    rt.rem ctx =
      ({ rt with
          ref := ∅
          onData := if ctx.owner = .console then none else rt.onData },
        { ctx with count := ⟨0, 0, 0⟩ }, true) := by
  simp [rem, h, hlast, SubRefs.counts]

theorem rem_left (h : SubRefs.bit ctx.owner ∈ rt.ref)
    (hleft : rt.ref.erase (SubRefs.bit ctx.owner) ≠ ∅) :
    rt.rem ctx =
      ({ rt with
          ref := rt.ref.erase (SubRefs.bit ctx.owner)
          onData := if ctx.owner = .console then none else rt.onData },
        { ctx with
          count := SubRefs.counts (rt.ref.erase (SubRefs.bit ctx.owner))
          seqno := rt.startSeqno }, false) := by
  have hcard : (rt.ref.erase (SubRefs.bit ctx.owner)).card ≠ 0 := fun h0 =>
    hleft (Finset.card_eq_zero.1 h0)
  rw [rem, if_neg (not_not.2 h)]
  exact if_neg hcard

end

end SubRoute

/-- The other routes with the hash of the key. -/
def collisions {α : Type} (tab : RouteVec α) (key : RouteKey) : ℕ :=
  (tab.keys.filter fun k => k.hash = key.hash ∧ k ≠ key).length

/-- `resolve_coll`. For each other route `rt2` with the hash, the references of
`rt` itself are counted. -/
def SubArgs.resolveColl (ctx : SubArgs) (ref : SubRefs) (n : ℕ) : SubArgs :=
  let c := ref.counts
  { ctx with
    coll := ⟨ctx.coll.sub + n * c.sub, ctx.coll.console + n * c.console, ctx.coll.ipc + n * c.ipc⟩ }

/-- `SubTab::start`. A new route has the references `mem` before it is set, whatever
its memory held. -/
def SubTab.start (tab : RouteVec SubRoute) (list : SubList) (ctx : SubArgs) (mem : SubRefs) :
    RouteVec SubRoute × SubList × SubArgs × SubStatus :=
  match tab.lookup ctx.key with
  | none =>
    let r := SubRoute.start (ctx.resolveColl mem (collisions tab ctx.key))
    (tab.insert ctx.key r.1, list.push r.2.seqno r.2.hash .subJoin, r.2, .ok)
  | some rt =>
    let r := rt.add (ctx.resolveColl rt.ref (collisions tab ctx.key))
    (tab.insert ctx.key r.1, list, r.2.1, if r.2.2 then .updated else .alreadyExists)

/-- `SubTab::stop`. -/
def SubTab.stop (tab : RouteVec SubRoute) (list : SubList) (ctx : SubArgs) :
    RouteVec SubRoute × SubList × SubArgs × SubStatus :=
  match tab.lookup ctx.key with
  | none => (tab, list, ctx, .notFound)
  | some rt =>
    let r := rt.rem (ctx.resolveColl rt.ref (collisions tab ctx.key))
    if r.2.2 then (tab.erase ctx.key, (list.pop rt.startSeqno).1, r.2.1, .ok)
    else (tab.insert ctx.key r.1, list, r.2.1, .updated)

namespace SubTab

variable {tab : RouteVec SubRoute} {ctx : SubArgs} {rt : SubRoute} (list : SubList)

theorem start_none (h : tab.lookup ctx.key = none) (mem : SubRefs) :
    start tab list ctx mem =
      let r := SubRoute.start (ctx.resolveColl mem (collisions tab ctx.key))
      (tab.insert ctx.key r.1, list.push r.2.seqno r.2.hash .subJoin, r.2, .ok) := by
  rw [start, h]

theorem start_held (h : tab.lookup ctx.key = some rt) (hbit : SubRefs.bit ctx.owner ∈ rt.ref)
    (mem : SubRefs) :
    start tab list ctx mem =
      (tab.insert ctx.key rt, list, ctx.resolveColl rt.ref (collisions tab ctx.key),
        .alreadyExists) := by
  rw [start, h]
  simp only [SubRoute.add_held rt (ctx.resolveColl rt.ref (collisions tab ctx.key)) hbit]
  rfl

theorem start_join (h : tab.lookup ctx.key = some rt) (hbit : SubRefs.bit ctx.owner ∉ rt.ref)
    (mem : SubRefs) :
    start tab list ctx mem =
      (tab.insert ctx.key { rt with
          ref := insert (SubRefs.bit ctx.owner) rt.ref
          onData := if ctx.owner = .console then ctx.cb else rt.onData }, list,
        { ctx.resolveColl rt.ref (collisions tab ctx.key) with
          count := SubRefs.counts (insert (SubRefs.bit ctx.owner) rt.ref)
          seqno := rt.startSeqno }, .updated) := by
  rw [start, h]
  simp only [SubRoute.add_new rt (ctx.resolveColl rt.ref (collisions tab ctx.key)) hbit]
  rfl

theorem stop_none (h : tab.lookup ctx.key = none) :
    stop tab list ctx = (tab, list, ctx, .notFound) := by
  rw [stop, h]

theorem stop_absent (h : tab.lookup ctx.key = some rt) (hbit : SubRefs.bit ctx.owner ∉ rt.ref) :
    stop tab list ctx =
      (tab.insert ctx.key rt, list, ctx.resolveColl rt.ref (collisions tab ctx.key), .updated) := by
  rw [stop, h]
  simp only [SubRoute.rem_absent rt (ctx.resolveColl rt.ref (collisions tab ctx.key)) hbit]
  rfl

theorem stop_last (h : tab.lookup ctx.key = some rt) (hbit : SubRefs.bit ctx.owner ∈ rt.ref)
    (hlast : rt.ref.erase (SubRefs.bit ctx.owner) = ∅) :
    stop tab list ctx =
      (tab.erase ctx.key, (list.pop rt.startSeqno).1,
        { ctx.resolveColl rt.ref (collisions tab ctx.key) with count := ⟨0, 0, 0⟩ }, .ok) := by
  rw [stop, h]
  simp only [SubRoute.rem_last rt (ctx.resolveColl rt.ref (collisions tab ctx.key)) hbit hlast]
  rfl

theorem stop_left (h : tab.lookup ctx.key = some rt) (hbit : SubRefs.bit ctx.owner ∈ rt.ref)
    (hleft : rt.ref.erase (SubRefs.bit ctx.owner) ≠ ∅) :
    stop tab list ctx =
      (tab.insert ctx.key { rt with
          ref := rt.ref.erase (SubRefs.bit ctx.owner)
          onData := if ctx.owner = .console then none else rt.onData }, list,
        { ctx.resolveColl rt.ref (collisions tab ctx.key) with
          count := SubRefs.counts (rt.ref.erase (SubRefs.bit ctx.owner))
          seqno := rt.startSeqno }, .updated) := by
  rw [stop, h]
  simp only [SubRoute.rem_left rt (ctx.resolveColl rt.ref (collisions tab ctx.key)) hbit hleft]
  rfl

end SubTab

/-! ## Patterns -/

/-- `PatternArgs`. -/
structure PatternArgs where
  pat : Subject
  queue : Subject
  cvt : PatternCvt
  cb : Option ℕ
  seqno : ℕ
  owner : Owner
  isStart : Bool
  queueSub : Bool
  hash : UInt32
  queueHash : UInt32
  queueRefs : ℕ
  count : RefCounts
  bloomUpdated : Bool

/-- `PatternArgs()`. -/
def PatternArgs.new (pat : Subject) (cvt : PatternCvt) (cb : Option ℕ) (seqno : ℕ)
    (owner : Owner) (isStart queueSub : Bool) (hash : UInt32) : PatternArgs :=
  ⟨pat, [], cvt, cb, seqno, owner, isStart, queueSub, hash, 0, 0, ⟨0, 0, 0⟩, false⟩

def PatternArgs.key (ctx : PatternArgs) : RouteKey := ⟨ctx.hash, ctx.pat⟩

/-- `PatRoute`, less the compiled pattern. -/
structure PatRoute where
  startSeqno : ℕ
  onData : Option ℕ
  ref : SubRefs
  fmt : ℕ
  prefixLen : ℕ
  detail : BloomDetail

namespace PatRoute

variable (kv : Kv)

/-- `init_queue`, for a pattern of a queue. -/
def queueDetail (ctx : PatternArgs) (detail : BloomDetail) : BloomDetail :=
  if ctx.queueHash = 0 then detail
  else .queueMatch ⟨ctx.queueHash, ctx.queueRefs, kv.hash2 ctx.pat ctx.cvt.prefixLen ctx.hash⟩

/-- `PatRoute::start`, none if the pattern does not compile. -/
def start (ctx : PatternArgs) : Option (PatRoute × PatternArgs) :=
  match kv.compile ctx.pat ctx.cvt with
  | none => none
  | some detail =>
    let ref := SubRefs.init ctx.owner
    some (⟨ctx.seqno, ctx.cb, ref, ctx.cvt.fmt, ctx.cvt.prefixLen, queueDetail kv ctx (.pattern detail)⟩,
      { ctx with count := { ref.counts with sub := 1 } })

/-- `PatRoute::add`. -/
def add (rt : PatRoute) (ctx : PatternArgs) : PatRoute × PatternArgs × Bool :=
  let rt := { rt with detail := queueDetail kv ctx rt.detail }
  if SubRefs.bit ctx.owner ∈ rt.ref then (rt, ctx, false)
  else
    let ref := insert (SubRefs.bit ctx.owner) rt.ref
    ({ rt with ref := ref, onData := if ctx.owner = .console then ctx.cb else rt.onData },
      { ctx with count := SubRefs.counts ref, seqno := rt.startSeqno }, true)

/-- `PatRoute::rem`. -/
def rem (rt : PatRoute) (ctx : PatternArgs) : PatRoute × PatternArgs × Bool :=
  if SubRefs.bit ctx.owner ∉ rt.ref then (rt, ctx, false)
  else
    let ref := rt.ref.erase (SubRefs.bit ctx.owner)
    let rt' := { rt with ref := ref, onData := if ctx.owner = .console then none else rt.onData }
    let ctx := { ctx with count := SubRefs.counts ref }
    if ref.card = 0 then (rt', ctx, true)
    else (rt', { ctx with seqno := rt.startSeqno }, false)

section

variable (rt : PatRoute) (ctx : PatternArgs)

theorem rem_absent (h : SubRefs.bit ctx.owner ∉ rt.ref) : rt.rem ctx = (rt, ctx, false) :=
  if_pos h

theorem rem_last (h : SubRefs.bit ctx.owner ∈ rt.ref)
    (hlast : rt.ref.erase (SubRefs.bit ctx.owner) = ∅) :
    rt.rem ctx =
      ({ rt with
          ref := ∅
          onData := if ctx.owner = .console then none else rt.onData },
        { ctx with count := ⟨0, 0, 0⟩ }, true) := by
  simp [rem, h, hlast, SubRefs.counts]

theorem rem_left (h : SubRefs.bit ctx.owner ∈ rt.ref)
    (hleft : rt.ref.erase (SubRefs.bit ctx.owner) ≠ ∅) :
    rt.rem ctx =
      ({ rt with
          ref := rt.ref.erase (SubRefs.bit ctx.owner)
          onData := if ctx.owner = .console then none else rt.onData },
        { ctx with
          count := SubRefs.counts (rt.ref.erase (SubRefs.bit ctx.owner))
          seqno := rt.startSeqno }, false) := by
  have hcard : (rt.ref.erase (SubRefs.bit ctx.owner)).card ≠ 0 := fun h0 =>
    hleft (Finset.card_eq_zero.1 h0)
  rw [rem, if_neg (not_not.2 h)]
  exact if_neg hcard

end

end PatRoute

/-- `PatTab`. -/
structure PatTab where
  tab : RouteVec PatRoute
  prefCount : ℕ → ℕ

namespace PatTab

def empty : PatTab := ⟨∅, fun _ => 0⟩

def MAX_PRE : ℕ := 64

/-- The index of a prefix length in `pref_count`. -/
def preflen (ctx : PatternArgs) : ℕ := min ctx.cvt.prefixLen (MAX_PRE - 1)

/-- `pref_count[ preflen ]++`. -/
def incPref (t : PatTab) (n : ℕ) : PatTab :=
  { t with prefCount := Function.update t.prefCount n ((t.prefCount n + 1) % 2 ^ 32) }

/-- `pref_count[ preflen ]--`. -/
def decPref (t : PatTab) (n : ℕ) : PatTab :=
  { t with prefCount := Function.update t.prefCount n ((t.prefCount n + (2 ^ 32 - 1)) % 2 ^ 32) }

/-- `PatTab::start`, with the route that it leaves in `ctx`. -/
def start (kv : Kv) (t : PatTab) (list : SubList) (ctx : PatternArgs) :
    PatTab × SubList × PatternArgs × SubStatus × Option PatRoute :=
  match t.tab.lookup ctx.key with
  | none =>
    match PatRoute.start kv ctx with
    | none => (t, list, ctx, .error, none)
    | some (rt, ctx) =>
      ({ t with tab := t.tab.insert ctx.key rt }.incPref (preflen ctx),
        list.push ctx.seqno ctx.hash .psubStart, ctx, .ok, some rt)
  | some rt =>
    let r := rt.add kv ctx
    if r.2.2 then
      ({ t with tab := t.tab.insert ctx.key r.1 }.incPref (preflen ctx), list, r.2.1, .updated,
        some r.1)
    else
      -- the route stays where it is; only that of a queue is set again
      ({ t with tab := if ctx.queueHash = 0 then t.tab else t.tab.insert ctx.key r.1 }, list,
        r.2.1, .alreadyExists, some r.1)

/-- `PatTab::stop`, with the route that it leaves in `ctx`. The route is removed
later (`remove`), and `pref_count` is lowered for every owner. -/
def stop (t : PatTab) (ctx : PatternArgs) :
    PatTab × PatternArgs × SubStatus × Option PatRoute :=
  match t.tab.lookup ctx.key with
  | none => (t, ctx, .notFound, none)
  | some rt =>
    let r := rt.rem ctx
    let t := { t with tab := t.tab.insert ctx.key r.1 }.decPref (preflen ctx)
    (t, r.2.1, if r.2.2 then .ok else .updated, some r.1)

section

variable {kv : Kv} {t : PatTab} {ctx : PatternArgs} {rt : PatRoute} (list : SubList)

theorem start_failed (h : t.tab.lookup ctx.key = none) (hc : kv.compile ctx.pat ctx.cvt = none) :
    t.start kv list ctx = (t, list, ctx, .error, none) := by
  rw [start, h]
  simp [PatRoute.start, hc]

theorem start_new (h : t.tab.lookup ctx.key = none) {d : PatternDetail}
    (hc : kv.compile ctx.pat ctx.cvt = some d) :
    t.start kv list ctx =
      let rt : PatRoute := ⟨ctx.seqno, ctx.cb, SubRefs.init ctx.owner, ctx.cvt.fmt,
        ctx.cvt.prefixLen, PatRoute.queueDetail kv ctx (.pattern d)⟩
      ({ t with tab := t.tab.insert ctx.key rt }.incPref (preflen ctx),
        list.push ctx.seqno ctx.hash .psubStart,
        { ctx with count := { (SubRefs.init ctx.owner).counts with sub := 1 } }, .ok, some rt) := by
  rw [start, h]
  simp only [PatRoute.start, hc]
  rfl

theorem start_held (h : t.tab.lookup ctx.key = some rt) (hbit : SubRefs.bit ctx.owner ∈ rt.ref) :
    t.start kv list ctx =
      let rt' : PatRoute := { rt with detail := PatRoute.queueDetail kv ctx rt.detail }
      ({ t with tab := if ctx.queueHash = 0 then t.tab else t.tab.insert ctx.key rt' }, list, ctx,
        .alreadyExists, some rt') := by
  rw [start, h]
  simp [PatRoute.add, hbit]

theorem start_join (h : t.tab.lookup ctx.key = some rt) (hbit : SubRefs.bit ctx.owner ∉ rt.ref) :
    t.start kv list ctx =
      let rt' : PatRoute := { rt with
        detail := PatRoute.queueDetail kv ctx rt.detail
        ref := insert (SubRefs.bit ctx.owner) rt.ref
        onData := if ctx.owner = .console then ctx.cb else rt.onData }
      ({ t with tab := t.tab.insert ctx.key rt' }.incPref (preflen ctx), list,
        { ctx with
          count := SubRefs.counts (insert (SubRefs.bit ctx.owner) rt.ref)
          seqno := rt.startSeqno }, .updated, some rt') := by
  rw [start, h]
  simp [PatRoute.add, hbit]

theorem stop_none (h : t.tab.lookup ctx.key = none) : t.stop ctx = (t, ctx, .notFound, none) := by
  rw [stop, h]

theorem stop_absent (h : t.tab.lookup ctx.key = some rt) (hbit : SubRefs.bit ctx.owner ∉ rt.ref) :
    t.stop ctx =
      ({ t with tab := t.tab.insert ctx.key rt }.decPref (preflen ctx), ctx, .updated, some rt) := by
  rw [stop, h]
  simp [PatRoute.rem_absent rt ctx hbit]

theorem stop_last (h : t.tab.lookup ctx.key = some rt) (hbit : SubRefs.bit ctx.owner ∈ rt.ref)
    (hlast : rt.ref.erase (SubRefs.bit ctx.owner) = ∅) :
    t.stop ctx =
      let rt' : PatRoute := { rt with
        ref := ∅
        onData := if ctx.owner = .console then none else rt.onData }
      ({ t with tab := t.tab.insert ctx.key rt' }.decPref (preflen ctx),
        { ctx with count := ⟨0, 0, 0⟩ }, .ok, some rt') := by
  rw [stop, h]
  simp [PatRoute.rem_last rt ctx hbit hlast]

theorem stop_left (h : t.tab.lookup ctx.key = some rt) (hbit : SubRefs.bit ctx.owner ∈ rt.ref)
    (hleft : rt.ref.erase (SubRefs.bit ctx.owner) ≠ ∅) :
    t.stop ctx =
      let rt' : PatRoute := { rt with
        ref := rt.ref.erase (SubRefs.bit ctx.owner)
        onData := if ctx.owner = .console then none else rt.onData }
      ({ t with tab := t.tab.insert ctx.key rt' }.decPref (preflen ctx),
        { ctx with
          count := SubRefs.counts (rt.ref.erase (SubRefs.bit ctx.owner))
          seqno := rt.startSeqno }, .updated, some rt') := by
  rw [stop, h]
  simp [PatRoute.rem_left rt ctx hbit hleft]

end

/-- `PatTab::remove`. -/
def remove (t : PatTab) (list : SubList) (ctx : PatternArgs) (rt : PatRoute) :
    PatTab × SubList :=
  ({ t with tab := t.tab.erase ctx.key }, (list.pop rt.startSeqno).1)

end PatTab

/-! ## Queues -/

/-- `QueueSubTab`. -/
structure QueueSubTab where
  queue : Subject
  queueHash : UInt32
  subTab : RouteVec SubRoute
  patTab : PatTab

namespace QueueSubTab

def new (queue : Subject) (queueHash : UInt32) : QueueSubTab :=
  ⟨queue, queueHash, ∅, .empty⟩

/-- `QueueSubTab::equals`: a queue without a name is known by its hash. -/
def equals (t : QueueSubTab) (queue : Subject) (queueHash : UInt32) : Bool :=
  queueHash = t.queueHash && (queue = t.queue || queue = [])

end QueueSubTab

namespace QueueSubArray

/-- `find_tab`: the tables before the one of the queue, that one, and those after
it. It is made if it is missing and the queue has a name. -/
def findTab (queue : Subject) (queueHash : UInt32) :
    List QueueSubTab → Option (List QueueSubTab × QueueSubTab × List QueueSubTab)
  | [] => if queue = [] then none else some ([], .new queue queueHash, [])
  | t :: ts =>
    if t.equals queue queueHash then some ([], t, ts)
    else (findTab queue queueHash ts).map fun r => (t :: r.1, r.2)

/-- The table of a queue is among the tables, or it is new: a sum over the tables
that leaves out an empty one does not change. -/
theorem sum_findTab {β : Type*} [AddCommMonoid β] (f : QueueSubTab → β) {queue : Subject}
    {queueHash : UInt32} (hnew : f (.new queue queueHash) = 0)
    {tabs before after : List QueueSubTab} {t : QueueSubTab}
    (h : findTab queue queueHash tabs = some (before, t, after)) :
    (tabs.map f).sum = ((before ++ t :: after).map f).sum := by
  induction tabs generalizing before with
  | nil =>
    rw [findTab] at h
    split at h
    · simp at h
    · obtain ⟨rfl, rfl, rfl⟩ : before = [] ∧ t = .new queue queueHash ∧ after = [] := by
        simpa [eq_comm] using h
      simp [hnew]
  | cons x tabs ih =>
    rw [findTab] at h
    split at h
    · obtain ⟨rfl, rfl, rfl⟩ : before = [] ∧ t = x ∧ after = tabs := by
        simpa [eq_comm] using h
      rfl
    · obtain ⟨r, hr, heq⟩ := Option.map_eq_some_iff.1 h
      obtain ⟨rfl, hr2⟩ := Prod.mk.inj heq
      have hsum := ih (by rw [hr, ← hr2])
      simp only [List.map_cons, List.sum_cons, List.cons_append, hsum]

/-- An update of a queue is never refused. -/
def queueStatus : SubStatus → SubStatus
  | .alreadyExists => .updated
  | s => s

/-- `QueueSubArray::start`, of a subject. -/
def startSub (tabs : List QueueSubTab) (list : SubList) (ctx : SubArgs) (mem : SubRefs) :
    List QueueSubTab × SubList × SubArgs × SubStatus :=
  match findTab ctx.queue ctx.queueHash tabs with
  | none => (tabs, list, ctx, .error)
  | some (before, t, after) =>
    let r := SubTab.start t.subTab list ctx mem
    (before ++ { t with subTab := r.1 } :: after, r.2.1, r.2.2.1, queueStatus r.2.2.2)

/-- `QueueSubArray::stop`, of a subject. -/
def stopSub (tabs : List QueueSubTab) (list : SubList) (ctx : SubArgs) :
    List QueueSubTab × SubList × SubArgs × SubStatus :=
  match findTab ctx.queue ctx.queueHash tabs with
  | none => (tabs, list, ctx, .notFound)
  | some (before, t, after) =>
    let r := SubTab.stop t.subTab list ctx
    (before ++ { t with subTab := r.1 } :: after, r.2.1, r.2.2.1, r.2.2.2)

/-- `QueueSubArray::start`, of a pattern. -/
def startPat (kv : Kv) (tabs : List QueueSubTab) (list : SubList) (ctx : PatternArgs) :
    List QueueSubTab × SubList × PatternArgs × SubStatus × Option PatRoute :=
  match findTab ctx.queue ctx.queueHash tabs with
  | none => (tabs, list, ctx, .error, none)
  | some (before, t, after) =>
    let r := t.patTab.start kv list ctx
    (before ++ { t with patTab := r.1 } :: after, r.2.1, r.2.2.1, queueStatus r.2.2.2.1,
      r.2.2.2.2)

/-- `QueueSubArray::stop`, of a pattern. -/
def stopPat (tabs : List QueueSubTab) (ctx : PatternArgs) :
    List QueueSubTab × PatternArgs × SubStatus × Option PatRoute :=
  match findTab ctx.queue ctx.queueHash tabs with
  | none => (tabs, ctx, .notFound, none)
  | some (before, t, after) =>
    let r := t.patTab.stop ctx
    (before ++ { t with patTab := r.1 } :: after, r.2.1, r.2.2.1, r.2.2.2)

/-- `ctx.tab->remove( ctx )`, where the table is that of the queue. -/
def removePat (tabs : List QueueSubTab) (list : SubList) (ctx : PatternArgs) (rt : PatRoute) :
    List QueueSubTab × SubList :=
  match findTab ctx.queue ctx.queueHash tabs with
  | none => (tabs, list)
  | some (before, t, after) =>
    let r := t.patTab.remove list ctx rt
    (before ++ { t with patTab := r.1 } :: after, r.2)

end QueueSubArray

/-! ## The database -/

/-- `SubDB`, as far as this node's own subscriptions are concerned. -/
structure SubDB where
  /-- `mgr.ibx.hash`, the inbox prefix of this node -/
  ibxHash : UInt32
  /-- `mgr.mch.hash`, the multicast prefix -/
  mchHash : UInt32
  subSeqno : ℕ
  updateSeqno : ℕ
  subList : SubList
  subTab : RouteVec SubRoute
  patTab : PatTab
  bloom : BloomRef
  console : BloomRef
  ipc : BloomRef
  queueTab : List QueueSubTab

/-- A `_S.JOIN`, `_S.LEAV`, `_P.PSUB` or `_P.PSTP` message. -/
structure SubMsg where
  isStart : Bool
  isPattern : Bool
  value : Subject
  seqno : ℕ
  hash : UInt32
  /-- the format of a pattern -/
  fmt : Option ℕ
  queue : Subject
  queueHash : UInt32
  queueRefs : ℕ
  bloomUpd : Bool

namespace SubDB

variable (kv : Kv) (db : SubDB)

/-- A node after `SessionMgr::init_session`, whose bloom has the inbox and the
multicast prefix. -/
def init (ibxLen : ℕ) (ibxHash : UInt32) (mchLen : ℕ) (mchHash : UInt32) : SubDB where
  ibxHash := ibxHash
  mchHash := mchHash
  subSeqno := 0
  updateSeqno := 0
  subList := .empty
  subTab := ∅
  patTab := .empty
  bloom := (BloomRef.empty.addRoute ibxLen ibxHash).addRoute mchLen mchHash
  console := .empty
  ipc := .empty
  queueTab := []

/-- `update_sub_seqno( sub_seqno, sub_seqno + 1 )`, whose new value has 32 bits. -/
def nextSeqno : ℕ := (db.subSeqno + 1) % 2 ^ 32

/-! ### Subjects -/

/-- `update_bloom( SubArgs )`, for the start of a subject. -/
def startBloom (ctx : SubArgs) : SubDB × SubArgs :=
  let m : QueueMatch := ⟨ctx.queueHash, ctx.queueRefs, kv.hash2 ctx.sub ctx.sub.length ctx.hash⟩
  if ctx.queueHash ≠ 0 then
    ({ db with
        bloom := kv.addQueueRoute db.bloom SUB_RTE ctx.hash m
        console :=
          if ctx.owner = .console then kv.addQueueRoute db.console SUB_RTE ctx.hash m
          else db.console
        ipc :=
          if ctx.owner = .console then db.ipc else kv.addQueueRoute db.ipc SUB_RTE ctx.hash m },
      { ctx with bloomUpdated := true })
  else if ctx.count.sub = 1 ∧ ctx.coll.sub = 0 then
    ({ db with
        bloom := db.bloom.add ctx.hash
        console :=
          if ctx.owner = .console ∧ ctx.count.console = 1 ∧ ctx.coll.console = 0 then
            db.console.add ctx.hash
          else db.console
        ipc :=
          if ctx.owner ≠ .console ∧ ctx.count.ipc = 1 ∧ ctx.coll.ipc = 0 then db.ipc.add ctx.hash
          else db.ipc },
      { ctx with bloomUpdated := true })
  else (db, ctx)

/-- `update_bloom( SubArgs )`, for the stop of a subject. -/
def stopBloom (ctx : SubArgs) : SubDB × SubArgs :=
  let m : QueueMatch := ⟨ctx.queueHash, 0, kv.hash2 ctx.sub ctx.sub.length ctx.hash⟩
  if ctx.queueHash ≠ 0 then
    ({ db with
        bloom := kv.delQueueRoute db.bloom SUB_RTE ctx.hash m
        console :=
          if ctx.owner = .console then kv.delQueueRoute db.console SUB_RTE ctx.hash m
          else db.console
        ipc :=
          if ctx.owner = .console then db.ipc else kv.delQueueRoute db.ipc SUB_RTE ctx.hash m },
      { ctx with bloomUpdated := true })
  else if ctx.count.sub = 0 ∧ ctx.coll.sub = 0 then
    ({ db with
        bloom := db.bloom.del ctx.hash
        console :=
          if ctx.owner = .console ∧ ctx.count.console = 0 ∧ ctx.coll.console = 0 then
            db.console.del ctx.hash
          else db.console
        ipc :=
          if ctx.owner ≠ .console ∧ ctx.count.ipc = 0 ∧ ctx.coll.ipc = 0 then db.ipc.del ctx.hash
          else db.ipc },
      { ctx with bloomUpdated := true })
  else (db, ctx)

/-- `update_bloom( SubArgs )`. -/
def updateBloom (ctx : SubArgs) : SubDB × SubArgs :=
  let db := { db with updateSeqno := db.updateSeqno + 1 }
  if ctx.isStart then db.startBloom kv ctx else db.stopBloom kv ctx

/-- `fwd_sub`. -/
def fwdSub (ctx : SubArgs) : SubDB × SubMsg :=
  ({ db with subSeqno := db.nextSeqno },
    { isStart := ctx.isStart, isPattern := false, value := ctx.sub, seqno := db.nextSeqno,
      hash := ctx.hash, fmt := none, queue := ctx.queue, queueHash := ctx.queueHash,
      queueRefs := ctx.queueRefs, bloomUpd := ctx.bloomUpdated })

/-- The result of a start or stop: the database, the message sent and the value
returned. -/
structure Result where
  db : SubDB
  sent : Option SubMsg
  ret : ℕ

/-- What `sub_start` and `sub_stop` do after the tables: the message is sent if the
count of references is `n`. -/
def finishSub (ctx : SubArgs) (status : SubStatus) (n : ℕ) : Result :=
  if status = .ok ∨ status = .updated then
    let r := db.updateBloom kv ctx
    let f := r.1.fwdSub r.2
    let db := if r.2.count.sub = n then f.1 else r.1
    ⟨db, if r.2.count.sub = n then some f.2 else none,
      if status = .ok then db.subSeqno else r.2.seqno⟩
  else ⟨db, none, 0⟩

/-- The part of `sub_start` that starts the route. -/
def startSubTab (ctx : SubArgs) (mem : SubRefs) : SubDB × SubArgs × SubStatus :=
  if ctx.queueHash = 0 then
    let r := SubTab.start db.subTab db.subList ctx mem
    ({ db with subTab := r.1, subList := r.2.1 }, r.2.2)
  else
    let r := QueueSubArray.startSub db.queueTab db.subList ctx mem
    ({ db with queueTab := r.1, subList := r.2.1 }, r.2.2)

def subStart (ctx : SubArgs) (mem : SubRefs) : Result :=
  let r := db.startSubTab ctx mem
  r.1.finishSub kv r.2.1 r.2.2 1

/-- The part of `sub_stop` that stops the route. -/
def stopSubTab (ctx : SubArgs) : SubDB × SubArgs × SubStatus :=
  if ctx.queueHash = 0 then
    let r := SubTab.stop db.subTab db.subList ctx
    ({ db with subTab := r.1, subList := r.2.1 }, r.2.2)
  else
    let r := QueueSubArray.stopSub db.queueTab db.subList ctx
    ({ db with queueTab := r.1, subList := r.2.1 }, r.2.2)

def subStop (ctx : SubArgs) : Result :=
  let r := db.stopSubTab ctx
  r.1.finishSub kv r.2.1 r.2.2 0

/-! ### Patterns -/

/-- `add_bloom`: the data of a suffix or a shard goes with the hash of the prefix. -/
def addBloom (ctx : PatternArgs) (rt : PatRoute) (b : BloomRef) : BloomRef :=
  match rt.detail with
  | .pattern _ => b.addRoute ctx.cvt.prefixLen ctx.hash
  | .queueMatch m => kv.addQueueRoute b ctx.cvt.prefixLen ctx.hash m

/-- `del_bloom`. -/
def delBloom (ctx : PatternArgs) (rt : PatRoute) (b : BloomRef) : BloomRef :=
  match rt.detail with
  | .pattern _ => b.delRoute ctx.cvt.prefixLen ctx.hash
  | .queueMatch m => kv.delQueueRoute b ctx.cvt.prefixLen ctx.hash m

/-- `update_bloom( PatternArgs )`, for the start of a pattern. -/
def startPatBloom (ctx : PatternArgs) (rt : PatRoute) : SubDB × PatternArgs :=
  let all := ctx.queueSub ∨ ctx.count.sub = 1
  ({ db with
      bloom := if all then addBloom kv ctx rt db.bloom else db.bloom
      console :=
        if ctx.owner = .console ∧ (ctx.queueSub ∨ ctx.count.console = 1) then
          addBloom kv ctx rt db.console
        else db.console
      ipc :=
        if ctx.owner ≠ .console ∧ (ctx.queueSub ∨ ctx.count.ipc = 1) then
          addBloom kv ctx rt db.ipc
        else db.ipc },
    if all then { ctx with bloomUpdated := true } else ctx)

/-- `update_bloom( PatternArgs )`, for the stop of a pattern. -/
def stopPatBloom (ctx : PatternArgs) (rt : PatRoute) : SubDB × PatternArgs :=
  ({ db with
      bloom := if ctx.count.sub = 0 then delBloom kv ctx rt db.bloom else db.bloom
      console :=
        if ctx.owner = .console ∧ ctx.count.console = 0 then delBloom kv ctx rt db.console
        else db.console
      ipc :=
        if ctx.owner ≠ .console ∧ ctx.count.ipc = 0 then delBloom kv ctx rt db.ipc
        else db.ipc },
    if ctx.count.sub = 0 then { ctx with bloomUpdated := true } else ctx)

/-- `update_bloom( PatternArgs )`. -/
def updatePatBloom (ctx : PatternArgs) (rt : PatRoute) : SubDB × PatternArgs :=
  let db := { db with updateSeqno := db.updateSeqno + 1 }
  if ctx.isStart then db.startPatBloom kv ctx rt else db.stopPatBloom kv ctx rt

/-- `fwd_psub`. -/
def fwdPsub (ctx : PatternArgs) : SubDB × SubMsg :=
  ({ db with subSeqno := db.nextSeqno },
    { isStart := ctx.isStart, isPattern := true, value := ctx.pat, seqno := db.nextSeqno,
      hash := ctx.hash, fmt := some ctx.cvt.fmt, queue := ctx.queue, queueHash := ctx.queueHash,
      queueRefs := ctx.queueRefs, bloomUpd := ctx.bloomUpdated })

/-- The part of `psub_start` that starts the route. -/
def startPatTab (ctx : PatternArgs) : SubDB × PatternArgs × SubStatus × Option PatRoute :=
  if ctx.queueHash = 0 then
    let r := db.patTab.start kv db.subList ctx
    ({ db with patTab := r.1, subList := r.2.1 }, r.2.2)
  else
    let r := QueueSubArray.startPat kv db.queueTab db.subList ctx
    ({ db with queueTab := r.1, subList := r.2.1 }, r.2.2)

/-- The part of `psub_stop` that stops the route. -/
def stopPatTab (ctx : PatternArgs) : SubDB × PatternArgs × SubStatus × Option PatRoute :=
  if ctx.queueHash = 0 then
    let r := db.patTab.stop ctx
    ({ db with patTab := r.1 }, r.2)
  else
    let r := QueueSubArray.stopPat db.queueTab ctx
    ({ db with queueTab := r.1 }, r.2)

/-- `ctx.tab->remove( ctx )`. -/
def removePatTab (ctx : PatternArgs) (rt : PatRoute) : SubDB :=
  if ctx.queueHash = 0 then
    let r := db.patTab.remove db.subList ctx rt
    { db with patTab := r.1, subList := r.2 }
  else
    let r := QueueSubArray.removePat db.queueTab db.subList ctx rt
    { db with queueTab := r.1, subList := r.2 }

/-- `psub_start`. -/
def psubStart (ctx : PatternArgs) : Result :=
  match db.startPatTab kv ctx with
  | (db, ctx, status, some rt) =>
    if status = .ok ∨ status = .updated then
      let r := db.updatePatBloom kv ctx rt
      let f := r.1.fwdPsub r.2
      let db := if r.2.count.sub = 1 then f.1 else r.1
      ⟨db, if r.2.count.sub = 1 then some f.2 else none,
        if status = .ok then db.subSeqno else r.2.seqno⟩
    else ⟨db, none, 0⟩
  | (db, _, _, none) => ⟨db, none, 0⟩

/-- `psub_stop`. -/
def psubStop (ctx : PatternArgs) : Result :=
  match db.stopPatTab ctx with
  | (db, ctx, status, some rt) =>
    let r := db.updatePatBloom kv ctx rt
    let f := r.1.fwdPsub r.2
    let db := if r.2.count.sub = 0 then f.1 else r.1
    let sent := if r.2.count.sub = 0 then some f.2 else none
    if status = .ok then ⟨db.removePatTab ctx rt, sent, db.subSeqno⟩ else ⟨db, sent, r.2.seqno⟩
  | (db, _, _, none) => ⟨db, none, 0⟩

/-! ### Rebuilding the blooms -/

/-- `SubRefs::test`. -/
def testRefs (console ipc : Bool) (refs : SubRefs) : Bool :=
  (console && refs.hasConsole) || (ipc && refs.hasIpc)

/-- The hashes of the routes of a table that pass the test. -/
def indexTab {α : Type} (ref : α → SubRefs) (console ipc : Bool) (tab : RouteVec α) :
    Multiset UInt32 :=
  ((FiniteMap.entries tab).filter fun e => testRefs console ipc (ref e.2)).map fun e => e.1.hash

/-- `index_bloom`. -/
def indexBloom (console ipc : Bool) : Multiset UInt32 :=
  (if console && ipc then {db.ibxHash, db.mchHash} else 0) +
    indexTab SubRoute.ref console ipc db.subTab +
    indexTab PatRoute.ref console ipc db.patTab.tab +
    (db.queueTab.map fun t => indexTab SubRoute.ref console ipc t.subTab +
      indexTab PatRoute.ref console ipc t.patTab.tab).sum

/-- `resize_bloom`; the arguments say which of the blooms have to grow. -/
def resizeBloom (bloom console ipc : Bool) : SubDB :=
  { db with
    bloom := if bloom then { db.bloom with bits := db.indexBloom true true } else db.bloom
    console := if console then { db.console with bits := db.indexBloom true false } else db.console
    ipc := if ipc then { db.ipc with bits := db.indexBloom false true } else db.ipc }

/-! ### What can happen -/

/-- What a subscriber asks for. A `NotifySub` comes with the hash of its subject,
which is computed if it is 0, a `NotifyPattern` with its conversion and its hash;
`subCount` is the number of subscribers that a queue has left. `mem` is the memory
of a new route, and `resizeBloom` the end of a start that made a bloom grow. -/
inductive Event where
  | consoleSubStart (sub : Subject) (cb : Option ℕ) (mem : SubRefs)
  | consoleSubStop (sub : Subject)
  | ipcSubStart (sub : Subject) (hash : UInt32) (tportId : ℕ) (mem : SubRefs)
  | ipcSubStop (sub : Subject) (hash : UInt32) (tportId : ℕ)
  | queueSubUpdate (sub : Subject) (hash : UInt32) (tportId : ℕ) (queue : Subject)
      (queueHash : UInt32) (subCount : ℕ) (mem : SubRefs)
  | consolePsubStart (pat : Subject) (fmt : ℕ) (cb : Option ℕ)
  | consolePsubStop (pat : Subject) (fmt : ℕ)
  | ipcPsubStart (pat : Subject) (cvt : PatternCvt) (hash : UInt32) (tportId : ℕ)
  | ipcPsubStop (pat : Subject) (cvt : PatternCvt) (hash : UInt32) (tportId : ℕ)
  | queuePsubUpdate (pat : Subject) (cvt : PatternCvt) (hash : UInt32) (tportId : ℕ)
      (queue : Subject) (queueHash : UInt32) (subCount : ℕ)
  | resizeBloom (bloom console ipc : Bool)

/-- A call of one of the four functions that change the subscriptions. -/
inductive Call where
  | subStart (ctx : SubArgs) (mem : SubRefs)
  | subStop (ctx : SubArgs)
  | psubStart (ctx : PatternArgs)
  | psubStop (ctx : PatternArgs)
  | resizeBloom (bloom console ipc : Bool)
  | none

/-- The hash of `SubArgs()`. -/
def subHash (sub : Subject) (hash : UInt32) : UInt32 :=
  if hash = 0 then kv.subjectHash sub else hash

/-- The call that an event makes. -/
def call : Event → Call
  | .consoleSubStart sub cb mem =>
    .subStart (.new sub cb (db.subSeqno + 1) .console true (subHash kv sub 0)) mem
  | .consoleSubStop sub => .subStop (.new sub none 0 .console false (subHash kv sub 0))
  | .ipcSubStart sub hash tportId mem =>
    .subStart (.new sub none (db.subSeqno + 1) (.ipc tportId) true (subHash kv sub hash)) mem
  | .ipcSubStop sub hash tportId =>
    .subStop (.new sub none 0 (.ipc tportId) false (subHash kv sub hash))
  | .queueSubUpdate sub hash tportId queue queueHash subCount mem =>
    let ctx := { SubArgs.new sub none (db.subSeqno + 1) (.ipc tportId) (subCount ≠ 0)
        (subHash kv sub hash) with
      queue := queue, queueHash := queueHash, queueRefs := subCount }
    if subCount ≠ 0 then .subStart ctx mem else .subStop ctx
  | .consolePsubStart pat fmt cb =>
    match kv.convert pat fmt with
    | none => .none
    | some cvt =>
      .psubStart (.new pat cvt cb (db.subSeqno + 1) .console true false
        (kv.prefixHash pat cvt.prefixLen))
  | .consolePsubStop pat fmt =>
    match kv.convert pat fmt with
    | none => .none
    | some cvt =>
      .psubStop (.new pat cvt none 0 .console false false (kv.prefixHash pat cvt.prefixLen))
  | .ipcPsubStart pat cvt hash tportId =>
    .psubStart (.new pat cvt none (db.subSeqno + 1) (.ipc tportId) true false hash)
  | .ipcPsubStop pat cvt hash tportId =>
    .psubStop (.new pat cvt none 0 (.ipc tportId) false false hash)
  | .queuePsubUpdate pat cvt hash tportId queue queueHash subCount =>
    -- the sequence number is 0, also if a route is started
    let ctx := { PatternArgs.new pat cvt none 0 (.ipc tportId) (subCount ≠ 0) true hash with
      queue := queue, queueHash := queueHash, queueRefs := subCount }
    if subCount ≠ 0 then .psubStart ctx else .psubStop ctx
  | .resizeBloom bloom console ipc => .resizeBloom bloom console ipc

def runCall : Call → Result
  | .subStart ctx mem => db.subStart kv ctx mem
  | .subStop ctx => db.subStop kv ctx
  | .psubStart ctx => db.psubStart kv ctx
  | .psubStop ctx => db.psubStop kv ctx
  | .resizeBloom bloom console ipc => ⟨db.resizeBloom bloom console ipc, none, 0⟩
  | .none => ⟨db, none, 0⟩

def step (e : Event) : SubDB := (db.runCall kv (db.call kv e)).db

/-- A node whose patterns are all prefixes, and whose queue routes are added by
their hash. -/
def prefixKv : Kv where
  addQueueRoute b n h _ := b.addRoute n h
  delQueueRoute b n h _ := b.delRoute n h
  hash2 _ _ h := h
  subjectHash _ := 1
  prefixHash _ _ := 2
  convert pat fmt := some ⟨fmt, pat.length - 1⟩
  compile _ _ := some .noDetail

end SubDB

end Raims
