import Raims.Sub.SubListIter
import Raims.Sub.SubLog
import Mathlib.Data.List.Infix

/-!
# The answer to a request for subscriptions (`recv_subs_request`)

A peer asks for the subscriptions of a range of sequence numbers. The node walks its log, looks up
the route of each entry in the four kinds of tables, and sends one message for it, from where the
last one ended to the sequence number of the route; a message without a route goes on to the end
of the range if the last route is below it.
-/

namespace Raims

/-- The last part of the inbox that a message goes to: the number that the request asks for, or
the one of its kind. -/
inductive ReplySuf where
  | resub | repsub | ret (n : UInt32)
deriving DecidableEq

/-- A message of `fwd_resub`, or the last one of `recv_subs_request`. -/
structure ResubMsg where
  suf : ReplySuf
  seqno : ℕ
  subject : Option Subject
  /-- a pattern and its format -/
  pattern : Option (Subject × ℕ)
  start : ℕ
  /-- `end` -/
  stop : ℕ
  token : Option ℕ
  /-- a queue and its hash -/
  queue : Option (Subject × UInt32)
deriving DecidableEq

/-- The fields of a request; one that is missing is zero or empty. -/
structure SubsRequest where
  start : ℕ
  /-- `end` -/
  stop : ℕ
  token : ℕ
  /-- `match` -/
  data : Subject
  ret : UInt32

/-- A route that a lookup finds, with what `fwd_resub` sends of it. -/
structure FoundRoute where
  hash : UInt32
  seqno : ℕ
  action : SubAction
  value : Subject
  fmt : ℕ
  queue : Subject
  queueHash : UInt32
deriving DecidableEq

/-- The locals of `recv_subs_request` that change, the messages that were sent, and
`zpath_seqno[ U_INBOX_RESUB ]` of the peer. -/
structure SubsReply where
  fromSeqno : ℕ
  sent : List ResubMsg
  inboxSeqno : ℕ
  ok : Bool

/-- `dec.get_return( ret_buf, NULL )`, or else `suf`. -/
def SubsRequest.suf (req : SubsRequest) (suf : ReplySuf) : ReplySuf :=
  if req.ret ≠ 0 then .ret req.ret else suf

/-- Whether a subject has what the request looks for. -/
def SubsRequest.wants (req : SubsRequest) (value : Subject) : Bool :=
  req.data = [] ∨ req.data <:+: value

namespace SubsReply

variable (fwd : ResubMsg → Bool) (req : SubsRequest) (r : SubsReply)

/-- `n.inbox.next_send( U_INBOX_RESUB )` -/
def nextSend : ℕ := (r.inboxSeqno + 1) % 2 ^ 64

/-- The end of a message: `forward_to_inbox`, which is `fwd`. -/
def send (m : ResubMsg) : SubsReply :=
  { r with sent := r.sent ++ [m], inboxSeqno := m.seqno, ok := r.ok && fwd m }

/-- The message of `fwd_resub`. -/
def resubMsg (x : FoundRoute) (seqno : ℕ) : ResubMsg where
  suf := req.suf (match x.action with | .subJoin => .resub | .psubStart => .repsub)
  seqno := r.nextSend
  subject := match x.action with | .subJoin => some x.value | .psubStart => none
  pattern := match x.action with | .subJoin => none | .psubStart => some (x.value, x.fmt)
  start := r.fromSeqno
  stop := seqno
  token := if req.token ≠ 0 then some req.token else none
  queue := if x.queue ≠ [] then some (x.queue, x.queueHash) else none

/-- `fwd_resub` -/
def fwdResub (x : FoundRoute) (seqno : ℕ) : SubsReply := r.send fwd (r.resubMsg req x seqno)

/-- What `find_fwd_sub` and `find_fwd_psub` do with the route that was looked up. -/
def forward (found : Option FoundRoute) (seqno : ℕ) : SubsReply :=
  match found with
  | none => r
  | some x =>
    if req.wants x.value then { r.fwdResub fwd req x seqno with fromSeqno := seqno } else r

/-- The message without a route. -/
def endMsg (stop : ℕ) : ResubMsg where
  suf := req.suf .resub
  seqno := r.nextSend
  subject := none
  pattern := none
  start := r.fromSeqno
  stop := stop
  token := if req.token ≠ 0 then some req.token else none
  queue := none

/-- The end of `recv_subs_request`. -/
def sendEnd (stop : ℕ) : SubsReply :=
  if r.fromSeqno < stop then r.send fwd (r.endMsg req stop) else r

end SubsReply

/-- The routes of a table in the order in which `find_by_hash` and `find_next_by_hash` meet those
of one hash, with the queue of the table. -/
def tabRoutes {α : Type} (startSeqno fmt : α → ℕ) (action : SubAction) (queue : Subject)
    (queueHash : UInt32) (tab : RouteVec α) : List FoundRoute :=
  tab.entries.map fun e =>
    ⟨e.1.hash, startSeqno e.2, action, e.1.value, fmt e.2, queue, queueHash⟩

def subTabRoutes : Subject → UInt32 → RouteVec SubRoute → List FoundRoute :=
  tabRoutes SubRoute.startSeqno (fun _ => 0) .subJoin

def patTabRoutes : Subject → UInt32 → RouteVec PatRoute → List FoundRoute :=
  tabRoutes PatRoute.startSeqno PatRoute.fmt .psubStart

/-- `SubTab::find_sub` and `PatTab::find_sub`. -/
def findRoute (hash : UInt32) (seqno : ℕ) (routes : List FoundRoute) : Option FoundRoute :=
  routes.find? fun x => x.hash = hash ∧ x.seqno = seqno

namespace SubDB

variable (db : SubDB)

/-- The lookup of `find_fwd_sub`: `sub_tab`, and then the queues. -/
def findSub (hash : UInt32) (seqno : ℕ) : Option FoundRoute :=
  match findRoute hash seqno (subTabRoutes [] 0 db.subTab) with
  | some x => some x
  | none => db.queueTab.findSome? fun t =>
    findRoute hash seqno (subTabRoutes t.queue t.queueHash t.subTab)

/-- The lookup of `find_fwd_psub`. -/
def findPsub (hash : UInt32) (seqno : ℕ) : Option FoundRoute :=
  match findRoute hash seqno (patTabRoutes [] 0 db.patTab.tab) with
  | some x => some x
  | none => db.queueTab.findSome? fun t =>
    findRoute hash seqno (patTabRoutes t.queue t.queueHash t.patTab.tab)

/-- The lookup of an entry of the log. -/
def findEntry (e : SubEntry) : Option FoundRoute :=
  match e.action with
  | .subJoin => db.findSub e.hash e.seqno
  | .psubStart => db.findPsub e.hash e.seqno

/-- `end` of a request: the last sequence number when it is 0. -/
def requestEnd (req : SubsRequest) : ℕ := if req.stop = 0 then db.subSeqno else req.stop

/-- `recv_subs_request`. `inboxSeqno` is what the peer's inbox has before. -/
def recvSubsRequest (fwd : ResubMsg → Bool) (fuel inboxSeqno : ℕ) (req : SubsRequest) :
    Option SubsReply :=
  let iter := SubListIter.new db.subList ((req.start + 1) % 2 ^ 64) (db.requestEnd req)
  let body (r : SubsReply) (e : SubEntry) := r.forward fwd req (db.findEntry e) e.seqno
  (SubListIter.forEach body fuel iter.first ⟨req.start, [], inboxSeqno, true⟩).map fun r =>
    r.sendEnd fwd req (db.requestEnd req)

/-- The routes of the tables of one kind, those of the queues last. -/
def routesOf : SubAction → List FoundRoute
  | .subJoin => subTabRoutes [] 0 db.subTab ++
      db.queueTab.flatMap fun t => subTabRoutes t.queue t.queueHash t.subTab
  | .psubStart => patTabRoutes [] 0 db.patTab.tab ++
      db.queueTab.flatMap fun t => patTabRoutes t.queue t.queueHash t.patTab.tab

/-- The routes of all the tables. -/
def liveRoutes : List FoundRoute := db.routesOf .subJoin ++ db.routesOf .psubStart

end SubDB

/-! ## The lookups -/

/-- The entry of a route in the log. -/
def FoundRoute.entry (x : FoundRoute) : SubEntry := ⟨x.seqno, x.hash, x.action⟩

namespace SubDB

variable {db : SubDB} {hash : UInt32} {seqno : ℕ}

theorem coe_map_entry_tabRoutes {α : Type} (startSeqno fmt : α → ℕ) (action : SubAction)
    (queue : Subject) (queueHash : UInt32) (tab : RouteVec α) :
    (((tabRoutes startSeqno fmt action queue queueHash tab).map FoundRoute.entry :
      List SubEntry) : Multiset SubEntry) = tabEntries startSeqno action tab := by
  simp only [tabRoutes, tabEntries, FiniteMap.entries, List.map_map, Multiset.map_coe]
  rfl

/-- The entries of the tables are those of the routes. -/
theorem coe_map_entry_liveRoutes (db : SubDB) :
    ((db.liveRoutes.map FoundRoute.entry : List SubEntry) : Multiset SubEntry) =
      db.routeEntries := by
  have hqueue : ∀ tabs : List QueueSubTab,
      (((tabs.flatMap fun t => subTabRoutes t.queue t.queueHash t.subTab).map FoundRoute.entry :
        List SubEntry) : Multiset SubEntry) +
      (((tabs.flatMap fun t => patTabRoutes t.queue t.queueHash t.patTab.tab).map
        FoundRoute.entry : List SubEntry) : Multiset SubEntry) = queueEntries tabs := by
    intro tabs
    induction tabs with
    | nil => rfl
    | cons t tabs ih =>
      simp only [queueEntries, List.map_cons, List.sum_cons, List.flatMap_cons,
        List.map_append, ← Multiset.coe_add] at ih ⊢
      rw [← ih, subTabRoutes, patTabRoutes, coe_map_entry_tabRoutes, coe_map_entry_tabRoutes,
        subEntries, patEntries]
      abel
  simp only [liveRoutes, routesOf, routeEntries, List.map_append, ← Multiset.coe_add, ← hqueue]
  rw [subTabRoutes, patTabRoutes, coe_map_entry_tabRoutes, coe_map_entry_tabRoutes, subEntries,
    patEntries]
  abel

/-- The lookup goes through the routes of all tables of its kind. -/
theorem findRoute_append (l l' : List FoundRoute) :
    findRoute hash seqno (l ++ l') =
      match findRoute hash seqno l with
      | some x => some x
      | none => findRoute hash seqno l' := by
  unfold findRoute
  rw [List.find?_append]
  cases l.find? fun x => x.hash = hash ∧ x.seqno = seqno <;> rfl

theorem findRoute_flatMap (f : QueueSubTab → List FoundRoute) (tabs : List QueueSubTab) :
    findRoute hash seqno (tabs.flatMap f) =
      tabs.findSome? fun t => findRoute hash seqno (f t) := by
  induction tabs with
  | nil => rfl
  | cons t tabs ih =>
    rw [List.flatMap_cons, findRoute_append, List.findSome?_cons, ih]
    cases findRoute hash seqno (f t) <;> rfl

theorem findEntry_eq (db : SubDB) (e : SubEntry) :
    db.findEntry e = findRoute e.hash e.seqno (db.routesOf e.action) := by
  unfold findEntry
  cases e.action with
  | subJoin => simp only [routesOf, findRoute_append, findRoute_flatMap, findSub]
  | psubStart => simp only [routesOf, findRoute_append, findRoute_flatMap, findPsub]

theorem action_of_mem_tabRoutes {α : Type} {startSeqno fmt : α → ℕ} {action : SubAction}
    {queue : Subject} {queueHash : UInt32} {tab : RouteVec α} {x : FoundRoute}
    (h : x ∈ tabRoutes startSeqno fmt action queue queueHash tab) : x.action = action := by
  obtain ⟨e, -, rfl⟩ := List.mem_map.mp h
  rfl

theorem action_of_mem_routesOf {action : SubAction} {x : FoundRoute}
    (h : x ∈ db.routesOf action) : x.action = action := by
  cases action with
  | subJoin =>
    rcases List.mem_append.mp h with h | h
    · exact action_of_mem_tabRoutes h
    · obtain ⟨t, -, h⟩ := List.mem_flatMap.mp h
      exact action_of_mem_tabRoutes h
  | psubStart =>
    rcases List.mem_append.mp h with h | h
    · exact action_of_mem_tabRoutes h
    · obtain ⟨t, -, h⟩ := List.mem_flatMap.mp h
      exact action_of_mem_tabRoutes h

theorem mem_liveRoutes_iff {x : FoundRoute} : x ∈ db.liveRoutes ↔ x ∈ db.routesOf x.action := by
  constructor
  · intro h
    rcases List.mem_append.mp h with h | h
    · rwa [action_of_mem_routesOf h]
    · rwa [action_of_mem_routesOf h]
  · intro h
    cases hx : x.action with
    | subJoin => exact List.mem_append_left _ (hx ▸ h)
    | psubStart => exact List.mem_append_right _ (hx ▸ h)

/-- No two routes have one sequence number. -/
theorem LogInv.seqno_inj (h : db.LogInv) {x y : FoundRoute} (hx : x ∈ db.liveRoutes)
    (hy : y ∈ db.liveRoutes) (heq : x.seqno = y.seqno) : x = y := by
  have hperm : (db.liveRoutes.map FoundRoute.entry).Perm db.subList.entries := by
    rw [← Multiset.coe_eq_coe, coe_map_entry_liveRoutes, h.entries_eq]
  have hnodup : (db.subList.entries.map SubEntry.seqno).Nodup :=
    h.inv.ordered.imp Nat.ne_of_lt
  have hseqno : (db.liveRoutes.map FoundRoute.seqno).Nodup := by
    have hn := (hperm.map SubEntry.seqno).nodup_iff.mpr hnodup
    rwa [List.map_map] at hn
  exact List.inj_on_of_nodup_map hseqno hx hy heq

theorem LogInv.mem_entries_iff (h : db.LogInv) {e : SubEntry} :
    e ∈ db.subList.entries ↔ ∃ x ∈ db.liveRoutes, x.entry = e := by
  rw [← Multiset.mem_coe, h.entries_eq, ← coe_map_entry_liveRoutes, Multiset.mem_coe,
    List.mem_map]

/-- **Each entry of the log is looked up**: the tables have one route with it. -/
theorem LogInv.findEntry (h : db.LogInv) {e : SubEntry} (he : e ∈ db.subList.entries) :
    ∃ x ∈ db.liveRoutes, x.entry = e ∧ db.findEntry e = some x := by
  obtain ⟨x, hx, rfl⟩ := h.mem_entries_iff.mp he
  have hmem := mem_liveRoutes_iff.mp hx
  rw [findEntry_eq]
  cases hf : findRoute x.entry.hash x.entry.seqno (db.routesOf x.entry.action) with
  | none =>
    have hnot := List.find?_eq_none.mp hf x hmem
    simp [FoundRoute.entry] at hnot
  | some y =>
    have hy := List.mem_of_find?_eq_some hf
    have hkey : y.hash = x.entry.hash ∧ y.seqno = x.entry.seqno := by
      simpa using List.find?_some hf
    have hlive : y ∈ db.liveRoutes := by
      rw [mem_liveRoutes_iff, action_of_mem_routesOf hy]
      exact hy
    obtain rfl := h.seqno_inj hlive hx hkey.2
    exact ⟨y, hx, rfl, rfl⟩

end SubDB

/-! ## The reply -/

/-- The messages go from `start` to `stop` without a gap or an overlap. -/
def Contiguous : ℕ → List ResubMsg → ℕ → Prop
  | start, [], stop => start = stop
  | start, m :: ms, stop => m.start = start ∧ start < m.stop ∧ Contiguous m.stop ms stop

theorem Contiguous.append {a b c : ℕ} {ms ms' : List ResubMsg} (h : Contiguous a ms b)
    (h' : Contiguous b ms' c) : Contiguous a (ms ++ ms') c := by
  induction ms generalizing a with
  | nil =>
    obtain rfl : a = b := h
    exact h'
  | cons m ms ih =>
    obtain ⟨hstart, hlt, hrest⟩ := h
    exact ⟨hstart, hlt, ih hrest⟩

/-- The message tells of the route. -/
structure ResubMsg.Announces (m : ResubMsg) (x : FoundRoute) : Prop where
  stop : m.stop = x.seqno
  subject : m.subject = if x.action = .subJoin then some x.value else none
  pattern : m.pattern = if x.action = .psubStart then some (x.value, x.fmt) else none
  queue : m.queue = if x.queue ≠ [] then some (x.queue, x.queueHash) else none

/-- The messages answer a request for the range after `start` up to `stop`: one for each route of
the range, in order, then one without a route at most, and they lead from `start` to `stop`. -/
structure Answers (db : SubDB) (start stop : ℕ) (sent : List ResubMsg) : Prop where
  routes : ∃ xs msgs rest, sent = msgs ++ rest ∧
    xs.Perm (db.liveRoutes.filter fun x => start < x.seqno ∧ x.seqno ≤ stop) ∧
    (xs.map FoundRoute.seqno).Pairwise (· < ·) ∧ List.Forall₂ ResubMsg.Announces msgs xs ∧
    (rest = [] ∨ ∃ m, rest = [m] ∧ m.subject = none ∧ m.pattern = none)
  chain : start ≤ stop → Contiguous start sent stop

namespace SubsReply

variable {db : SubDB} {req : SubsRequest}

/-- The loop over entries whose routes are found: one message for each. -/
theorem foldl_forward (fwd : ResubMsg → Bool) (hdata : req.data = []) (es : List SubEntry)
    (r : SubsReply) (hord : (es.map SubEntry.seqno).Pairwise (· < ·)) (habove : ∀ e ∈ es, r.fromSeqno < e.seqno)
    (hfound : ∀ e ∈ es, ∃ x ∈ db.liveRoutes, x.entry = e ∧ db.findEntry e = some x) :
    let r' := es.foldl (fun (r : SubsReply) e => r.forward fwd req (db.findEntry e) e.seqno) r
    ∃ xs msgs, r'.sent = r.sent ++ msgs ∧ xs.map FoundRoute.entry = es ∧
      (∀ x ∈ xs, x ∈ db.liveRoutes) ∧ List.Forall₂ ResubMsg.Announces msgs xs ∧
      Contiguous r.fromSeqno msgs r'.fromSeqno ∧
      ∀ stop, r.fromSeqno ≤ stop → (∀ e ∈ es, e.seqno ≤ stop) → r'.fromSeqno ≤ stop := by
  induction es generalizing r with
  | nil => exact ⟨[], [], by simp, rfl, by simp, .nil, rfl, fun _ h _ => h⟩
  | cons e es ih =>
    obtain ⟨x, hx, hentry, hfind⟩ := hfound e List.mem_cons_self
    rw [List.map_cons, List.pairwise_cons] at hord
    have hwants : req.wants x.value = true := by simp [SubsRequest.wants, hdata]
    have hforward : r.forward fwd req (db.findEntry e) e.seqno =
        { r.fwdResub fwd req x e.seqno with fromSeqno := e.seqno } := by
      rw [hfind]
      exact if_pos hwants
    obtain ⟨xs, msgs, hsent, hentries, hlive, hannounce, hchain, hle⟩ :=
      ih { r.fwdResub fwd req x e.seqno with fromSeqno := e.seqno } hord.2
        (fun e' he' => hord.1 e'.seqno (List.mem_map_of_mem he'))
        fun e' he' => hfound e' (List.mem_cons_of_mem _ he')
    have hstop : e.seqno = x.seqno := by rw [← hentry, FoundRoute.entry]
    rw [List.foldl_cons, hforward]
    refine ⟨x :: xs, r.resubMsg req x e.seqno :: msgs, ?_, ?_, ?_, .cons ?_ hannounce, ?_, ?_⟩
    · rw [hsent]
      simp [fwdResub, send]
    · rw [List.map_cons, hentry, hentries]
    · intro y hy
      rcases List.mem_cons.mp hy with rfl | hy
      · exact hx
      · exact hlive y hy
    · refine ⟨hstop, ?_, ?_, rfl⟩
      · simp only [resubMsg]
        cases x.action <;> rfl
      · simp only [resubMsg]
        cases x.action <;> rfl
    · exact ⟨rfl, habove e List.mem_cons_self, hchain⟩
    · intro stop _ hes
      exact hle stop (hes e List.mem_cons_self) fun e' he' => hes e' (List.mem_cons_of_mem _ he')

/-- The last message goes on to the end of the range. -/
theorem sendEnd_spec (fwd : ResubMsg → Bool) (req : SubsRequest) (r : SubsReply) (stop : ℕ) :
    ∃ rest, (r.sendEnd fwd req stop).sent = r.sent ++ rest ∧
      (rest = [] ∨ ∃ m, rest = [m] ∧ m.subject = none ∧ m.pattern = none) ∧
      (r.fromSeqno ≤ stop → Contiguous r.fromSeqno rest stop) := by
  unfold sendEnd
  split
  · next hlt =>
      refine ⟨[r.endMsg req stop], rfl, Or.inr ⟨_, rfl, rfl, rfl⟩, fun _ => ⟨rfl, hlt, rfl⟩⟩
  · next hge =>
      refine ⟨[], by simp, Or.inl rfl, fun hle => ?_⟩
      exact Nat.le_antisymm hle (Nat.not_lt.mp hge)

end SubsReply

namespace SubDB

variable {kv : Kv} {db : SubDB}

/-- The range of the log after `start` up to `stop`. -/
def logRange (db : SubDB) (start stop : ℕ) : List SubEntry :=
  db.subList.entries.filter fun e => start < e.seqno ∧ e.seqno ≤ stop

theorem LogInv.pairwise_logRange (h : db.LogInv) (start stop : ℕ) :
    ((db.logRange start stop).map SubEntry.seqno).Pairwise (· < ·) :=
  h.inv.ordered.sublist (List.filter_sublist.map _)

/-- The routes whose entries are the range of the log are the live routes of the range. -/
theorem LogInv.perm_of_entries (h : db.LogInv) {start stop : ℕ} {xs : List FoundRoute}
    (hentries : xs.map FoundRoute.entry = db.logRange start stop)
    (hlive : ∀ x ∈ xs, x ∈ db.liveRoutes) :
    xs.Perm (db.liveRoutes.filter fun x => start < x.seqno ∧ x.seqno ≤ stop) := by
  have hseqno : xs.map FoundRoute.seqno = (db.logRange start stop).map SubEntry.seqno := by
    rw [← hentries, List.map_map]
    rfl
  have hxs : xs.Nodup := by
    refine List.Nodup.of_map FoundRoute.seqno ?_
    rw [hseqno]
    exact (h.pairwise_logRange start stop).imp Nat.ne_of_lt
  have hall : db.liveRoutes.Nodup := by
    refine List.Nodup.of_map FoundRoute.entry ?_
    rw [← Multiset.coe_nodup, coe_map_entry_liveRoutes, ← h.entries_eq, Multiset.coe_nodup]
    exact List.Nodup.of_map SubEntry.seqno (h.inv.ordered.imp Nat.ne_of_lt)
  refine (List.perm_ext_iff_of_nodup hxs (hall.filter _)).mpr fun x => ?_
  have hrange : x ∈ xs ↔ x ∈ db.liveRoutes ∧ x.entry ∈ db.logRange start stop := by
    rw [← hentries]
    constructor
    · intro hx
      exact ⟨hlive x hx, List.mem_map_of_mem hx⟩
    · rintro ⟨hx, hmem⟩
      obtain ⟨y, hy, heq⟩ := List.mem_map.mp hmem
      have hsame : y.seqno = x.seqno := congrArg SubEntry.seqno heq
      rwa [← h.seqno_inj (hlive y hy) hx hsame]
  rw [hrange, List.mem_filter, logRange, List.mem_filter]
  constructor
  · rintro ⟨hx, -, hin⟩
    exact ⟨hx, hin⟩
  · rintro ⟨hx, hin⟩
    exact ⟨hx, h.mem_entries_iff.mpr ⟨x, hx, rfl⟩, hin⟩

/-- `start + 1` does not wrap: the walk is over the range of the log. -/
theorem LogInv.forEach (h : db.LogInv) {σ : Type*} (body : σ → SubEntry → σ) {start : ℕ}
    (hstart : start + 1 < 2 ^ 64) (stop : ℕ) {fuel : ℕ}
    (hfuel : db.subList.entries.length < fuel) (s : σ) :
    SubListIter.forEach body fuel
        (SubListIter.new db.subList ((start + 1) % 2 ^ 64) stop).first s =
      some ((db.logRange start stop).foldl body s) := by
  rw [Nat.mod_eq_of_lt hstart, SubListIter.forEach_first body h.inv (start + 1) stop hfuel s]
  rfl

theorem LogInv.answers (h : db.LogInv) {req : SubsRequest} (hdata : req.data = [])
    (hstart : req.start + 1 < 2 ^ 64) (fwd : ResubMsg → Bool) (inboxSeqno : ℕ) {fuel : ℕ}
    (hfuel : db.subList.entries.length < fuel) :
    ∃ r, db.recvSubsRequest fwd fuel inboxSeqno req = some r ∧
      Answers db req.start (db.requestEnd req) r.sent := by
  set stop := db.requestEnd req with hstop
  have hrun := h.forEach (fun (r : SubsReply) e => r.forward fwd req (db.findEntry e) e.seqno)
    hstart stop hfuel ⟨req.start, [], inboxSeqno, true⟩
  have hmem : ∀ e ∈ db.logRange req.start stop,
      e ∈ db.subList.entries ∧ req.start < e.seqno ∧ e.seqno ≤ stop := by
    intro e he
    rw [logRange, List.mem_filter, decide_eq_true_eq] at he
    exact he
  obtain ⟨xs, msgs, hsent, hentries, hlive, hannounce, hchain, hle⟩ :=
    SubsReply.foldl_forward fwd hdata (db.logRange req.start stop)
      ⟨req.start, [], inboxSeqno, true⟩ (h.pairwise_logRange _ _) (fun e he => (hmem e he).2.1)
      fun e he => h.findEntry (hmem e he).1
  obtain ⟨rest, hend, hrest, hlast⟩ := SubsReply.sendEnd_spec fwd req
    ((db.logRange req.start stop).foldl
      (fun (r : SubsReply) e => r.forward fwd req (db.findEntry e) e.seqno)
      ⟨req.start, [], inboxSeqno, true⟩) stop
  refine ⟨_, by rw [recvSubsRequest, hrun]; rfl, ?_, ?_⟩
  · refine ⟨xs, msgs, rest, ?_, h.perm_of_entries hentries hlive, ?_, hannounce, hrest⟩
    · rw [hend, hsent, List.nil_append]
    · have hseqno := congrArg (List.map SubEntry.seqno) hentries
      rw [List.map_map] at hseqno
      have hord := h.pairwise_logRange req.start stop
      rwa [← hseqno] at hord
  · intro hrange
    rw [hend, hsent, List.nil_append]
    have hreach := hle stop hrange fun e he => (hmem e he).2.2
    exact hchain.append (hlast hreach)

/-! ## Runs -/

/-- **The walk and the answer are exact** in every state of a run whose steps keep the log: the
iterator gives the live sequence numbers of the range, in ascending order and each once, and a
request without a filter is answered with one message for each route of the range. -/
theorem subs_request_exact (kv : Kv) {ibxLen mchLen : ℕ} {ibxHash mchHash : UInt32}
    (h : Run.Reach (step kv) (KeepsLog kv) (init ibxLen ibxHash mchLen mchHash) db) :
    (∀ start stop fuel, start + 1 < 2 ^ 64 → db.subList.entries.length < fuel →
      SubListIter.forEach (fun es e => es ++ [e]) fuel
          (SubListIter.new db.subList ((start + 1) % 2 ^ 64) stop).first [] =
        some (db.logRange start stop) ∧
      ((db.logRange start stop).map SubEntry.seqno).Pairwise (· < ·)) ∧
    ∀ req fwd inboxSeqno fuel, req.start + 1 < 2 ^ 64 → req.data = [] →
      db.subList.entries.length < fuel →
      ∃ r, db.recvSubsRequest fwd fuel inboxSeqno req = some r ∧
        Answers db req.start (db.requestEnd req) r.sent := by
  have hempty : (init ibxLen ibxHash mchLen mchHash).LogInv := Logged.empty
  have hinv : db.LogInv := h.invariant hempty fun s e hs hk => hs.step hk
  constructor
  · intro start stop fuel hstart hfuel
    refine ⟨?_, hinv.pairwise_logRange start stop⟩
    rw [hinv.forEach _ hstart stop hfuel]
    simp [← List.flatMap_def]
  · intro req fwd inboxSeqno fuel hstart hdata hfuel
    exact hinv.answers hdata hstart fwd inboxSeqno hfuel

/-- Two subjects and a pattern, one of the subjects stopped, and a request for everything. -/
theorem subs_request_exact_threeStarts :
    let db := [.ipcSubStart [65] 7 0 ∅, .ipcSubStart [66] 8 0 ∅, .ipcPsubStart [65, 46, 62] ⟨0, 2⟩ 9 1,
      .ipcSubStop [65] 7 0].foldl (step prefixKv) (init 10 1 11 2)
    ∃ r, db.recvSubsRequest (fun _ => true) 3 0 ⟨0, 0, 0, [], 0⟩ = some r ∧
      Answers db 0 (db.requestEnd ⟨0, 0, 0, [], 0⟩) r.sent := by
  intro db
  have hreach : Run.Reach (step prefixKv) (KeepsLog prefixKv) (init 10 1 11 2) db := by
    refine Run.Reach.foldl .start ⟨?_, ?_, ?_, ?_, trivial⟩
    all_goals exact ⟨by decide, fun _ => rfl, fun _ => by decide⟩
  exact (subs_request_exact prefixKv hreach).2 ⟨0, 0, 0, [], 0⟩ (fun _ => true) 0 3 (by decide) rfl
    (by decide)

/-- A subject is started, and then a pattern of a queue, which is pushed with the sequence number
0: the walk leaves out the array, whose last slot is below what it looks for, and the answer does
not tell of the subject. -/
theorem queue_pattern_hides_subject :
    let db := [.ipcSubStart [65] 7 0 ∅, .queuePsubUpdate [65, 46, 62] ⟨0, 2⟩ 9 0 [81] 5 1].foldl
      (step prefixKv) (init 10 1 11 2)
    db.logRange 0 2 = [⟨1, 7, .subJoin⟩] ∧
    (db.recvSubsRequest (fun _ => true) 3 0 ⟨0, 2, 0, [], 0⟩).map SubsReply.sent =
      some [⟨.resub, 1, none, none, 0, 2, none, none⟩] ∧
    ¬ ∀ (kv : Kv) (ibxLen mchLen : ℕ) (ibxHash mchHash : UInt32) (db : SubDB),
      Run.Reach (step kv) (fun _ _ => True) (init ibxLen ibxHash mchLen mchHash) db →
      ∀ start stop fuel, start + 1 < 2 ^ 64 → db.subList.entries.length < fuel →
        SubListIter.forEach (fun es e => es ++ [e]) fuel
            (SubListIter.new db.subList ((start + 1) % 2 ^ 64) stop).first [] =
          some (db.logRange start stop) := by
  refine ⟨by decide, by decide, fun h => ?_⟩
  have hwalk := h prefixKv 10 11 1 2 _ (Run.Reach.foldl .start (Run.allOk_true _
    [.ipcSubStart [65] 7 0 ∅, .queuePsubUpdate [65, 46, 62] ⟨0, 2⟩ 9 0 [81] 5 1])) 0 2 3
    (by decide) (by decide)
  exact absurd hwalk (by decide)

end SubDB

end Raims
