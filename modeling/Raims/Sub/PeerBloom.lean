import Raims.Lib.Replica
import Raims.Sub.SubLog

/-!
# The copies of a bloom that peers hold

A node numbers the changes of its subscriptions and multicasts them, and it
answers requests with its whole bloom and the number of the last change. A peer
applies a change when it is the next one, and takes a bloom when its number is not
below the one it has; peers also pass their copies on to others. Nothing of this
comes in order, or once, or at all.
-/

namespace Raims

/-! ## What a peer receives -/

/-- raikv, as a peer uses it: it converts the pattern that it receives. -/
structure PeerKv extends Kv where
  /-- `BloomDetail::from_pattern` -/
  fromPattern : Subject → PatternCvt → Option PatternDetail
  /-- a route is started with it -/
  fromPattern_of_compile : ∀ {pat cvt d}, compile pat cvt = some d → fromPattern pat cvt = some d
  /-- `convert_rv` and `convert_glob` set the format -/
  convert_fmt : ∀ {pat fmt cvt}, convert pat fmt = some cvt → cvt.fmt = fmt

/-- The fields of a `UserBridge` that belong to its subscriptions. -/
structure PeerSub where
  subSeqno : ℕ
  bloom : BloomRef

namespace PeerSub

/-- A peer after `add_authenticated` and `add_inbox_route`. -/
def init (ibxLen : ℕ) (ibxHash : UInt32) (mchLen : ℕ) (mchHash : UInt32) : PeerSub :=
  ⟨0, (BloomRef.empty.addRoute mchLen mchHash).addRoute ibxLen ibxHash⟩

section

variable (kv : PeerKv) (m : SubMsg) (b : BloomRef)

/-- The message is of a queue: `FID_QUEUE_HASH`, `FID_QUEUE_REFS` and `FID_QUEUE`
are in it. -/
def isQueue : Prop := m.queueHash ≠ 0 ∧ m.queueRefs ≠ 0 ∧ m.queue ≠ []

instance : Decidable (isQueue m) := inferInstanceAs (Decidable (_ ∧ _))

/-- `recv_sub_start` -/
def recvSubStart : BloomRef :=
  if isQueue m then
    if m.bloomUpd then
      kv.addQueueRoute b SUB_RTE m.hash
        ⟨m.queueHash, m.queueRefs, kv.hash2 m.value m.value.length m.hash⟩
    else b
  else if m.bloomUpd then b.add m.hash
  else b

/-- `recv_sub_stop` -/
def recvSubStop : BloomRef :=
  if m.queueHash ≠ 0 then
    if m.bloomUpd then
      kv.delQueueRoute b SUB_RTE m.hash
        ⟨m.queueHash, 0, kv.hash2 m.value m.value.length m.hash⟩
    else b
  else if m.bloomUpd then b.del m.hash
  else b

/-- `cvt_wild`, with the hash that `ctx` has after it. -/
def cvtWild : Option (PatternCvt × UInt32) :=
  match m.fmt with
  | none => none
  | some fmt =>
    match kv.convert m.value fmt with
    | none => none
    | some cvt => some (cvt, if m.hash = 0 then kv.prefixHash m.value cvt.prefixLen else m.hash)

/-- `recv_psub_start` -/
def recvPsubStart : BloomRef :=
  match cvtWild kv m with
  | none => b
  | some (cvt, hash) =>
    if isQueue m then
      if m.bloomUpd then
        kv.addQueueRoute b cvt.prefixLen hash
          ⟨m.queueHash, m.queueRefs, kv.hash2 m.value cvt.prefixLen m.hash⟩
      else b
    else if (kv.fromPattern m.value cvt).isSome ∧ m.bloomUpd then b.addRoute cvt.prefixLen hash
    else b

/-- `recv_psub_stop` -/
def recvPsubStop : BloomRef :=
  match cvtWild kv m with
  | none => b
  | some (cvt, hash) =>
    if m.queueHash ≠ 0 then
      if m.bloomUpd then
        kv.delQueueRoute b cvt.prefixLen hash
          ⟨m.queueHash, 0, kv.hash2 m.value cvt.prefixLen m.hash⟩
      else b
    else if (kv.fromPattern m.value cvt).isSome ∧ m.bloomUpd then b.delRoute cvt.prefixLen hash
    else b

/-- What a change does to the copy of the bloom. -/
def recvChange : BloomRef :=
  match m.isPattern, m.isStart with
  | false, true => recvSubStart kv m b
  | false, false => recvSubStop kv m b
  | true, true => recvPsubStart kv m b
  | true, false => recvPsubStop kv m b

end

/-- `update_sub_seqno`: the new value has 32 bits. -/
def updateSubSeqno (n : PeerSub) (val : ℕ) : PeerSub := { n with subSeqno := val % 2 ^ 32 }

/-- `SessionMgr::on_msg`, of a change. -/
def onMsg (kv : PeerKv) (n : PeerSub) (m : SubMsg) : PeerSub :=
  if m.seqno = n.subSeqno + 1 then
    let n := n.updateSubSeqno m.seqno
    { n with bloom := recvChange kv m n.bloom }
  else n

/-- `recv_bloom` -/
def recvBloom (n : PeerSub) (subSeqno : ℕ) (bloom : BloomRef) : PeerSub :=
  if n.subSeqno ≤ subSeqno then { n with bloom := bloom }.updateSubSeqno subSeqno else n

end PeerSub

/-! ## The node and its peers -/

/-- A change, or a bloom result: `_Z.BLM`, `bloom_rpy` and `adj_rpy`. -/
inductive PeerMsg where
  | sub (m : SubMsg)
  | bloom (subSeqno : ℕ) (bloom : BloomRef)

/-- A node, its peers, and all that was sent. -/
structure BloomNet where
  db : SubDB
  /-- the bloom just after the change of a number -/
  numbered : ℕ → Option BloomRef
  peers : ℕ → PeerSub
  sent : List PeerMsg

namespace BloomNet

/-- A change of the node, a bloom that it sends, a bloom that a peer passes on,
the arrival at a peer of something that was sent, and a peer that drops the node
and authenticates it again. The sequence numbers of inbox and peer messages only
refuse some of what arrives, and refusing is like losing. -/
inductive Event where
  | change (e : SubDB.Event)
  | result
  | relay (i : ℕ)
  | recv (i k : ℕ)
  | rejoin (i : ℕ)

/-- Where the node starts. -/
structure Prefixes where
  ibxLen : ℕ
  ibxHash : UInt32
  mchLen : ℕ
  mchHash : UInt32

variable (kv : PeerKv) (p : Prefixes)

def peerInit : PeerSub := .init p.ibxLen p.ibxHash p.mchLen p.mchHash

def init : BloomNet where
  db := .init p.ibxLen p.ibxHash p.mchLen p.mchHash
  numbered := Function.update (fun _ => none) 0
    (some (SubDB.init p.ibxLen p.ibxHash p.mchLen p.mchHash).bloom)
  peers := fun _ => peerInit p
  sent := []

variable (s : BloomNet)

/-- A change: if it has a number, that is where its bloom is remembered. -/
def change (e : SubDB.Event) : BloomNet :=
  let r := s.db.runCall kv.toKv (s.db.call kv.toKv e)
  match r.sent with
  | none => { s with db := r.db }
  | some m =>
    { s with
      db := r.db
      numbered := Function.update s.numbered m.seqno (some r.db.bloom)
      sent := s.sent ++ [.sub m] }

def setPeer (i : ℕ) (n : PeerSub) : BloomNet := { s with peers := Function.update s.peers i n }

def recvMsg (n : PeerSub) : PeerMsg → PeerSub
  | .sub m => n.onMsg kv m
  | .bloom subSeqno bloom => n.recvBloom subSeqno bloom

def step (s : BloomNet) : Event → BloomNet
  | .change e => s.change kv e
  | .result => { s with sent := s.sent ++ [.bloom s.db.subSeqno s.db.bloom] }
  | .relay i => { s with sent := s.sent ++ [.bloom (s.peers i).subSeqno (s.peers i).bloom] }
  | .recv i k =>
    match s.sent[k]? with
    | none => s
    | some m => s.setPeer i (recvMsg kv (s.peers i) m)
  | .rejoin i => s.setPeer i (peerInit p)

end BloomNet

/-! ## What a change tells -/

/-- The conversion and the hash that raikv gives to a pattern. -/
def PatternArgs.Converted (kv : Kv) (ctx : PatternArgs) : Prop :=
  kv.convert ctx.pat ctx.cvt.fmt = some ctx.cvt ∧
    ctx.hash = kv.prefixHash ctx.pat ctx.cvt.prefixLen

namespace SubDB

/-- A call without a queue, whose pattern was converted by raikv. -/
def Call.Plain (kv : Kv) : Call → Prop
  | .subStart ctx _ => ctx.queueHash = 0 ∧ ctx.isStart = true ∧ ctx.bloomUpdated = false
  | .subStop ctx => ctx.queueHash = 0 ∧ ctx.isStart = false ∧ ctx.bloomUpdated = false
  | .psubStart ctx => (ctx.queueHash = 0 ∧ ctx.queueSub = false ∧ ctx.isStart = true ∧
      ctx.bloomUpdated = false) ∧ ctx.Converted kv
  | .psubStop ctx => (ctx.queueHash = 0 ∧ ctx.queueSub = false ∧ ctx.isStart = false ∧
      ctx.bloomUpdated = false) ∧ ctx.Converted kv
  | .resizeBloom .. => True
  | .none => True

/-- The result of a change: the message that is sent has the next number, and does
to a bloom what the change did to the bloom of the node; without a message the bloom
stays as it is. -/
def Told (kv : PeerKv) (db : SubDB) (r : Result) : Prop :=
  match r.sent with
  | none => r.db.subSeqno = db.subSeqno ∧ r.db.bloom = db.bloom
  | some m => (m.seqno = db.nextSeqno ∧ r.db.subSeqno = db.nextSeqno) ∧
      r.db.bloom = PeerSub.recvChange kv m db.bloom

variable (kv : PeerKv) {db : SubDB}

theorem Told.of_same {db₁ : SubDB} {r : Result} (h : Told kv db₁ r)
    (hseqno : db₁.subSeqno = db.subSeqno) (hbloom : db₁.bloom = db.bloom) : Told kv db r := by
  unfold Told nextSeqno at *
  rw [hseqno, hbloom] at h
  exact h

/-! ### Subjects -/

/-- The number of references at which a change is forwarded. -/
def fwdCount (isStart : Bool) : ℕ := if isStart then 1 else 0

/-- The bloom of a subject without a queue: it changes only when the change is
forwarded, and then the flag in the message says so. -/
theorem updateBloom_plain (kv : Kv) (db : SubDB) {ctx : SubArgs} (hq : ctx.queueHash = 0)
    (hup : ctx.bloomUpdated = false) :
    ∃ upd : Bool, (db.updateBloom kv ctx).2 = { ctx with bloomUpdated := upd } ∧
      (db.updateBloom kv ctx).1.subSeqno = db.subSeqno ∧
      (upd = true → ctx.count.sub = fwdCount ctx.isStart) ∧
      (db.updateBloom kv ctx).1.bloom =
        if upd then if ctx.isStart then db.bloom.add ctx.hash else db.bloom.del ctx.hash
        else db.bloom := by
  unfold updateBloom
  by_cases hs : ctx.isStart = true
  · simp only [if_pos hs, startBloom, if_neg (not_not_intro hq)]
    split
    · rename_i hc
      exact ⟨true, rfl, rfl, fun _ => by rw [hs]; exact hc.1, rfl⟩
    · exact ⟨false, by rw [← hup], rfl, fun h => absurd h Bool.false_ne_true, rfl⟩
  · simp only [if_neg hs, stopBloom, if_neg (not_not_intro hq)]
    split
    · rename_i hc
      exact ⟨true, rfl, rfl, fun _ => by rw [Bool.eq_false_of_not_eq_true hs]; exact hc.1, rfl⟩
    · exact ⟨false, by rw [← hup], rfl, fun h => absurd h Bool.false_ne_true, rfl⟩

/-- What a peer makes of a subject without a queue. -/
theorem recvChange_sub {m : SubMsg} (hpat : m.isPattern = false) (hq : m.queueHash = 0)
    (b : BloomRef) : PeerSub.recvChange kv m b =
      if m.bloomUpd then if m.isStart then b.add m.hash else b.del m.hash else b := by
  have hnot : ¬ PeerSub.isQueue m := fun h => h.1 hq
  unfold PeerSub.recvChange
  rw [hpat]
  cases m.isStart with
  | true => exact if_neg hnot
  | false => exact if_neg (not_not_intro hq)

theorem told_finishSub (db : SubDB) {ctx : SubArgs} (hq : ctx.queueHash = 0)
    (hup : ctx.bloomUpdated = false) (status : SubStatus) {n : ℕ}
    (hn : fwdCount ctx.isStart = n) : Told kv db (db.finishSub kv.toKv ctx status n) := by
  subst hn
  obtain ⟨upd, hctx, hseqno, hcount, hbloom⟩ := updateBloom_plain kv.toKv db hq hup
  unfold finishSub
  split
  swap
  · exact ⟨rfl, rfl⟩
  simp only [hctx]
  by_cases hfwd : ctx.count.sub = fwdCount ctx.isStart
  · simp only [if_pos hfwd]
    refine ⟨⟨congrArg (fun n => (n + 1) % 2 ^ 32) hseqno, congrArg (fun n => (n + 1) % 2 ^ 32) hseqno⟩, ?_⟩
    rw [recvChange_sub kv rfl hq]
    exact hbloom
  · simp only [if_neg hfwd]
    refine ⟨hseqno, hbloom.trans (if_neg fun h => hfwd (hcount h))⟩

theorem SubTab.start_ctx (tab : RouteVec SubRoute) (list : SubList) (ctx : SubArgs)
    (mem : SubRefs) : ∃ count coll seqno, (SubTab.start tab list ctx mem).2.2.1 =
      { ctx with count := count, coll := coll, seqno := seqno } := by
  unfold SubTab.start
  split
  · exact ⟨_, _, _, rfl⟩
  · unfold SubRoute.add
    split
    · exact ⟨_, _, _, rfl⟩
    · exact ⟨_, _, _, rfl⟩

theorem SubTab.stop_ctx (tab : RouteVec SubRoute) (list : SubList) (ctx : SubArgs) :
    ∃ count coll seqno, (SubTab.stop tab list ctx).2.2.1 =
      { ctx with count := count, coll := coll, seqno := seqno } := by
  unfold SubTab.stop
  split
  · exact ⟨_, _, _, rfl⟩
  · rename_i rt hrt
    have hrem : ∃ count coll seqno,
        (rt.rem (ctx.resolveColl rt.ref (collisions tab ctx.key))).2.1 =
          { ctx with count := count, coll := coll, seqno := seqno } := by
      unfold SubRoute.rem
      split
      · exact ⟨_, _, _, rfl⟩
      · dsimp only
        split
        · exact ⟨_, _, _, rfl⟩
        · exact ⟨_, _, _, rfl⟩
    dsimp only
    split
    · exact hrem
    · exact hrem

theorem told_subStart {ctx : SubArgs} (hq : ctx.queueHash = 0) (hs : ctx.isStart = true)
    (hup : ctx.bloomUpdated = false) (mem : SubRefs) : Told kv db (db.subStart kv.toKv ctx mem) := by
  obtain ⟨count, coll, seqno, hctx⟩ := SubTab.start_ctx db.subTab db.subList ctx mem
  unfold subStart startSubTab
  rw [if_pos hq]
  dsimp only
  rw [hctx]
  refine (told_finishSub kv _ ?_ ?_ _ ?_).of_same kv rfl rfl
  · exact hq
  · exact hup
  · exact congrArg fwdCount hs

theorem told_subStop {ctx : SubArgs} (hq : ctx.queueHash = 0) (hs : ctx.isStart = false)
    (hup : ctx.bloomUpdated = false) : Told kv db (db.subStop kv.toKv ctx) := by
  obtain ⟨count, coll, seqno, hctx⟩ := SubTab.stop_ctx db.subTab db.subList ctx
  unfold subStop stopSubTab
  rw [if_pos hq]
  dsimp only
  rw [hctx]
  refine (told_finishSub kv _ ?_ ?_ _ ?_).of_same kv rfl rfl
  · exact hq
  · exact hup
  · exact congrArg fwdCount hs

/-! ### Patterns -/

/-- The bloom of a pattern without a queue. -/
theorem updatePatBloom_plain (kv : Kv) (db : SubDB) {ctx : PatternArgs} {rt : PatRoute}
    {d : PatternDetail} (hq : ctx.queueSub = false) (hup : ctx.bloomUpdated = false)
    (hd : rt.detail = .pattern d) :
    ∃ upd : Bool, (db.updatePatBloom kv ctx rt).2 = { ctx with bloomUpdated := upd } ∧
      (db.updatePatBloom kv ctx rt).1.subSeqno = db.subSeqno ∧
      (upd = true → ctx.count.sub = fwdCount ctx.isStart) ∧
      (db.updatePatBloom kv ctx rt).1.bloom =
        if upd then
          if ctx.isStart then db.bloom.addRoute ctx.cvt.prefixLen ctx.hash
          else db.bloom.delRoute ctx.cvt.prefixLen ctx.hash
        else db.bloom := by
  unfold updatePatBloom
  by_cases hs : ctx.isStart = true
  · have hall : (ctx.queueSub = true ∨ ctx.count.sub = 1) ↔ ctx.count.sub = fwdCount ctx.isStart := by
      rw [hq, hs]
      exact or_iff_right Bool.false_ne_true
    simp only [if_pos hs, startPatBloom, hall]
    by_cases hc : ctx.count.sub = fwdCount ctx.isStart
    · refine ⟨true, if_pos hc, trivial, fun _ => hc, ?_⟩
      rw [if_pos hc, addBloom, hd]
      rfl
    · exact ⟨false, (if_neg hc).trans (by rw [← hup]), trivial,
        fun h => absurd h Bool.false_ne_true, if_neg hc⟩
  · have hall : ctx.count.sub = 0 ↔ ctx.count.sub = fwdCount ctx.isStart := by
      rw [Bool.eq_false_of_not_eq_true hs]
      exact Iff.rfl
    simp only [if_neg hs, stopPatBloom, hall]
    by_cases hc : ctx.count.sub = fwdCount ctx.isStart
    · refine ⟨true, if_pos hc, trivial, fun _ => hc, ?_⟩
      rw [if_pos hc, delBloom, hd]
      rfl
    · exact ⟨false, (if_neg hc).trans (by rw [← hup]), trivial,
        fun h => absurd h Bool.false_ne_true, if_neg hc⟩

/-- What a peer makes of a pattern without a queue. It converts it again. -/
theorem recvChange_pat {m : SubMsg} {cvt : PatternCvt} (hpat : m.isPattern = true)
    (hq : m.queueHash = 0) (hfmt : m.fmt = some cvt.fmt)
    (hcvt : kv.convert m.value cvt.fmt = some cvt)
    (hhash : m.hash = kv.prefixHash m.value cvt.prefixLen)
    (hfrom : (kv.fromPattern m.value cvt).isSome) (b : BloomRef) : PeerSub.recvChange kv m b =
      if m.bloomUpd then
        if m.isStart then b.addRoute cvt.prefixLen m.hash else b.delRoute cvt.prefixLen m.hash
      else b := by
  have hnot : ¬ PeerSub.isQueue m := fun h => h.1 hq
  have hwild : PeerSub.cvtWild kv m = some (cvt, m.hash) := by
    unfold PeerSub.cvtWild
    rw [hfmt]
    dsimp only
    rw [hcvt]
    dsimp only
    rw [← hhash, ite_self]
  unfold PeerSub.recvChange
  rw [hpat]
  cases m.isStart with
  | true =>
    simp only [PeerSub.recvPsubStart, hwild, if_neg hnot, hfrom, true_and]
    rfl
  | false =>
    simp only [PeerSub.recvPsubStop, hwild, if_neg (not_not_intro hq), hfrom, true_and]
    rfl

/-- The routes of patterns without a queue: each has a reference, and no data of a
queue. -/
def PatRoutesOk (t : PatTab) : Prop :=
  ∀ key rt, t.tab.lookup key = some rt → rt.ref ≠ ∅ ∧ ∃ d, rt.detail = .pattern d

theorem PatRoutesOk.insert {t : PatTab} (h : PatRoutesOk t) {key : RouteKey} {rt : PatRoute}
    (hrt : rt.ref ≠ ∅ ∧ ∃ d, rt.detail = .pattern d) :
    ∀ key' rt', (t.tab.insert key rt).lookup key' = some rt' →
      rt'.ref ≠ ∅ ∧ ∃ d, rt'.detail = .pattern d := by
  intro key' rt' hl
  by_cases hk : key' = key
  · subst hk
    rw [AList.lookup_insert] at hl
    cases hl
    exact hrt
  · rw [AList.lookup_insert_ne hk] at hl
    exact h key' rt' hl

/-- A route is inserted without its last reference, and then removed. -/
theorem PatRoutesOk.erase {t : PatTab} (h : PatRoutesOk t) {key : RouteKey} (rt : PatRoute) :
    ∀ key' rt', ((t.tab.insert key rt).erase key).lookup key' = some rt' →
      rt'.ref ≠ ∅ ∧ ∃ d, rt'.detail = .pattern d := by
  intro key' rt' hl
  by_cases hk : key' = key
  · subst hk
    rw [AList.lookup_erase] at hl
    exact absurd hl.symm (Option.some_ne_none _)
  · rw [AList.lookup_erase_ne hk, AList.lookup_insert_ne hk] at hl
    exact h key' rt' hl

/-- The end of `psub_start` and `psub_stop`: the bloom, and the message if the count
of references is `n`. -/
def finishPsub (kv : Kv) (db : SubDB) (ctx : PatternArgs) (rt : PatRoute) (n : ℕ) :
    SubDB × Option SubMsg :=
  let r := db.updatePatBloom kv ctx rt
  let f := r.1.fwdPsub r.2
  (if r.2.count.sub = n then f.1 else r.1, if r.2.count.sub = n then some f.2 else none)

theorem told_finishPsub (db : SubDB) {ctx : PatternArgs} {rt : PatRoute} {d : PatternDetail}
    (hq : ctx.queueHash = 0) (hqs : ctx.queueSub = false) (hup : ctx.bloomUpdated = false)
    (hconv : ctx.Converted kv.toKv) (hd : rt.detail = .pattern d) {n : ℕ}
    (hn : fwdCount ctx.isStart = n)
    (hfrom : ctx.count.sub = n → (kv.fromPattern ctx.pat ctx.cvt).isSome) (ret : ℕ) :
    Told kv db ⟨(finishPsub kv.toKv db ctx rt n).1, (finishPsub kv.toKv db ctx rt n).2, ret⟩ := by
  subst hn
  obtain ⟨upd, hctx, hseqno, hcount, hbloom⟩ := updatePatBloom_plain kv.toKv db hqs hup hd
  unfold finishPsub
  simp only [hctx]
  by_cases hfwd : ctx.count.sub = fwdCount ctx.isStart
  · simp only [if_pos hfwd]
    have hnext : (db.updatePatBloom kv.toKv ctx rt).1.nextSeqno = db.nextSeqno :=
      congrArg (fun n => (n + 1) % 2 ^ 32) hseqno
    refine ⟨⟨hnext, hnext⟩, ?_⟩
    rw [recvChange_pat kv rfl hq rfl hconv.1 hconv.2 (hfrom hfwd)]
    exact hbloom
  · simp only [if_neg hfwd]
    exact ⟨hseqno, hbloom.trans (if_neg fun h => hfwd (hcount h))⟩

theorem finishPsub_patTab (kv : Kv) (db : SubDB) (ctx : PatternArgs) (rt : PatRoute) (n : ℕ) :
    (finishPsub kv db ctx rt n).1.patTab = db.patTab := by
  have hsame := (sameRoutes_updatePatBloom kv db ctx rt).1.patTab
  unfold finishPsub
  dsimp only
  split
  · exact hsame
  · exact hsame

theorem psubStart_forwarded {kv : Kv} {ctx ctx₁ : PatternArgs} {db₁ : SubDB} {status : SubStatus}
    {rt : PatRoute} (h : db.startPatTab kv ctx = (db₁, ctx₁, status, some rt))
    (hst : status = .ok ∨ status = .updated) :
    ∃ ret, db.psubStart kv ctx =
      ⟨(finishPsub kv db₁ ctx₁ rt 1).1, (finishPsub kv db₁ ctx₁ rt 1).2, ret⟩ := by
  rw [psubStart, h]
  simp only [if_pos hst]
  exact ⟨_, rfl⟩

/-- A pattern is started with a new route, or nothing is sent: a route that is there
has a reference of another owner. -/
theorem told_psubStart {ctx : PatternArgs} (hroutes : PatRoutesOk db.patTab)
    (hq : ctx.queueHash = 0) (hqs : ctx.queueSub = false) (hs : ctx.isStart = true)
    (hup : ctx.bloomUpdated = false) (hconv : ctx.Converted kv.toKv) :
    Told kv db (db.psubStart kv.toKv ctx) ∧ PatRoutesOk (db.psubStart kv.toKv ctx).db.patTab := by
  have hstart : db.startPatTab kv.toKv ctx = ({ db with
      patTab := (db.patTab.start kv.toKv db.subList ctx).1
      subList := (db.patTab.start kv.toKv db.subList ctx).2.1 },
      (db.patTab.start kv.toKv db.subList ctx).2.2) := if_pos hq
  cases hlook : db.patTab.tab.lookup ctx.key with
  | none =>
    cases hc : kv.compile ctx.pat ctx.cvt with
    | none =>
      rw [PatTab.start_failed _ hlook hc] at hstart
      rw [psubStart, hstart]
      exact ⟨⟨rfl, rfl⟩, hroutes⟩
    | some d =>
      have hdetail : PatRoute.queueDetail kv.toKv ctx (.pattern d) = .pattern d := if_pos hq
      rw [PatTab.start_new _ hlook hc, hdetail] at hstart
      obtain ⟨ret, hret⟩ := psubStart_forwarded hstart (.inl rfl)
      rw [hret]
      refine ⟨?_, ?_⟩
      · refine (told_finishPsub kv (d := d) _ ?_ ?_ ?_ ?_ ?_ ?_ ?_ ret).of_same kv rfl rfl
        · exact hq
        · exact hqs
        · exact hup
        · exact hconv
        · rfl
        · exact congrArg fwdCount hs
        · intro _
          rw [kv.fromPattern_of_compile hc]
          rfl
      · rw [finishPsub_patTab]
        exact hroutes.insert ⟨Finset.singleton_ne_empty _, d, rfl⟩
  | some rt =>
    obtain ⟨hne, d, hd⟩ := hroutes ctx.key rt hlook
    have hdetail : PatRoute.queueDetail kv.toKv ctx rt.detail = .pattern d := (if_pos hq).trans hd
    by_cases hbit : SubRefs.bit ctx.owner ∈ rt.ref
    · rw [PatTab.start_held _ hlook hbit, hdetail] at hstart
      rw [psubStart, hstart]
      refine ⟨⟨rfl, rfl⟩, ?_⟩
      simp only [hq, if_true]
      exact hroutes
    · rw [PatTab.start_join _ hlook hbit, hdetail] at hstart
      obtain ⟨ret, hret⟩ := psubStart_forwarded hstart (.inr rfl)
      rw [hret]
      refine ⟨?_, ?_⟩
      · refine (told_finishPsub kv (d := d) _ ?_ ?_ ?_ ?_ ?_ ?_ ?_ ret).of_same kv rfl rfl
        · exact hq
        · exact hqs
        · exact hup
        · exact hconv
        · rfl
        · exact congrArg fwdCount hs
        · intro hcount
          have hcard : (insert (SubRefs.bit ctx.owner) rt.ref).card = 1 := hcount
          rw [Finset.card_insert_of_notMem hbit] at hcard
          exact absurd (Finset.card_eq_zero.mp (Nat.succ.inj hcard)) hne
      · rw [finishPsub_patTab]
        exact hroutes.insert ⟨Finset.insert_ne_empty _ _, d, rfl⟩

theorem psubStop_forwarded (kv : Kv) {ctx ctx₁ : PatternArgs} {db₁ : SubDB} {status : SubStatus}
    {rt : PatRoute} (h : db.stopPatTab ctx = (db₁, ctx₁, status, some rt)) :
    ∃ ret, db.psubStop kv ctx = ⟨if status = .ok then
        (finishPsub kv db₁ ctx₁ rt 0).1.removePatTab ctx₁ rt else (finishPsub kv db₁ ctx₁ rt 0).1,
      (finishPsub kv db₁ ctx₁ rt 0).2, ret⟩ := by
  rw [psubStop, h]
  dsimp only
  split
  · exact ⟨_, rfl⟩
  · exact ⟨_, rfl⟩

theorem told_removePatTab {db₁ : SubDB} {r : SubDB × Option SubMsg} {ret : ℕ} {ctx : PatternArgs}
    {rt : PatRoute} (h : Told kv db₁ ⟨r.1, r.2, ret⟩) :
    Told kv db₁ ⟨r.1.removePatTab ctx rt, r.2, ret⟩ := by
  have hsame : (r.1.removePatTab ctx rt).subSeqno = r.1.subSeqno ∧
      (r.1.removePatTab ctx rt).bloom = r.1.bloom := by
    unfold removePatTab
    split
    · exact ⟨rfl, rfl⟩
    · exact ⟨rfl, rfl⟩
  unfold Told at *
  rw [hsame.1, hsame.2]
  exact h

theorem told_psubStop {ctx : PatternArgs} (hroutes : PatRoutesOk db.patTab)
    (hq : ctx.queueHash = 0) (hqs : ctx.queueSub = false) (hs : ctx.isStart = false)
    (hup : ctx.bloomUpdated = false) (hconv : ctx.Converted kv.toKv)
    (hfrom : (db.patTab.tab.lookup ctx.key).isSome → (kv.fromPattern ctx.pat ctx.cvt).isSome) :
    Told kv db (db.psubStop kv.toKv ctx) ∧ PatRoutesOk (db.psubStop kv.toKv ctx).db.patTab := by
  have hstop : db.stopPatTab ctx = ({ db with patTab := (db.patTab.stop ctx).1 },
      (db.patTab.stop ctx).2) := if_pos hq
  cases hlook : db.patTab.tab.lookup ctx.key with
  | none =>
    rw [PatTab.stop_none hlook] at hstop
    rw [psubStop, hstop]
    exact ⟨⟨rfl, rfl⟩, hroutes⟩
  | some rt =>
    rw [hlook] at hfrom
    obtain ⟨hne, d, hd⟩ := hroutes ctx.key rt hlook
    -- whatever the references are, the message tells what became of the bloom
    have htold (db₁ : SubDB) (count : RefCounts) (seqno ret : ℕ) (rt' : PatRoute)
        (hd' : rt'.detail = .pattern d) (hseqno : db₁.subSeqno = db.subSeqno)
        (hbloom : db₁.bloom = db.bloom) :
        Told kv db ⟨(finishPsub kv.toKv db₁ { ctx with count := count, seqno := seqno } rt' 0).1,
          (finishPsub kv.toKv db₁ { ctx with count := count, seqno := seqno } rt' 0).2, ret⟩ := by
      refine (told_finishPsub kv db₁ ?_ ?_ ?_ ?_ hd' ?_ ?_ ret).of_same kv hseqno hbloom
      · exact hq
      · exact hqs
      · exact hup
      · exact hconv
      · exact congrArg fwdCount hs
      · exact fun _ => hfrom rfl
    by_cases hbit : SubRefs.bit ctx.owner ∈ rt.ref
    · by_cases hlast : rt.ref.erase (SubRefs.bit ctx.owner) = ∅
      · rw [PatTab.stop_last hlook hbit hlast] at hstop
        obtain ⟨ret, hret⟩ := psubStop_forwarded kv.toKv hstop
        rw [hret, if_pos rfl]
        refine ⟨told_removePatTab kv (htold _ _ ctx.seqno _ _ hd rfl rfl), ?_⟩
        unfold removePatTab
        rw [if_pos hq]
        dsimp only [PatTab.remove]
        rw [finishPsub_patTab]
        exact hroutes.erase _
      · rw [PatTab.stop_left hlook hbit hlast] at hstop
        obtain ⟨ret, hret⟩ := psubStop_forwarded kv.toKv hstop
        rw [hret, if_neg (by decide)]
        refine ⟨htold _ _ _ _ _ hd rfl rfl, ?_⟩
        rw [finishPsub_patTab]
        exact hroutes.insert ⟨hlast, d, hd⟩
    · rw [PatTab.stop_absent hlook hbit] at hstop
      obtain ⟨ret, hret⟩ := psubStop_forwarded kv.toKv hstop
      rw [hret, if_neg (by decide)]
      refine ⟨htold _ ctx.count ctx.seqno _ _ hd rfl rfl, ?_⟩
      rw [finishPsub_patTab]
      exact hroutes.insert ⟨hne, d, hd⟩

/-! ### All the calls -/

/-- Not a change of a queue. -/
def Event.isPlain : Event → Bool
  | .queueSubUpdate .. => false
  | .queuePsubUpdate .. => false
  | _ => true

/-- The pattern of a `NotifyPattern` comes as raikv converted it. -/
def Event.Converted (kv : Kv) : Event → Prop
  | .ipcPsubStart pat cvt hash _ =>
    kv.convert pat cvt.fmt = some cvt ∧ hash = kv.prefixHash pat cvt.prefixLen
  | .ipcPsubStop pat cvt hash _ =>
    kv.convert pat cvt.fmt = some cvt ∧ hash = kv.prefixHash pat cvt.prefixLen
  | _ => True

theorem call_plain (db : SubDB) {e : Event} (hplain : e.isPlain = true)
    (hconv : e.Converted kv.toKv) : (db.call kv.toKv e).Plain kv.toKv := by
  cases e with
  | consoleSubStart sub cb mem => exact ⟨rfl, rfl, rfl⟩
  | consoleSubStop sub => exact ⟨rfl, rfl, rfl⟩
  | ipcSubStart sub hash tportId mem => exact ⟨rfl, rfl, rfl⟩
  | ipcSubStop sub hash tportId => exact ⟨rfl, rfl, rfl⟩
  | queueSubUpdate => exact absurd hplain Bool.false_ne_true
  | consolePsubStart pat fmt cb =>
    simp only [call]
    split
    · trivial
    · rename_i cvt hcvt
      have hagain : kv.convert pat cvt.fmt = some cvt := by
        rw [kv.convert_fmt hcvt]
        exact hcvt
      exact ⟨⟨rfl, rfl, rfl, rfl⟩, hagain, rfl⟩
  | consolePsubStop pat fmt =>
    simp only [call]
    split
    · trivial
    · rename_i cvt hcvt
      have hagain : kv.convert pat cvt.fmt = some cvt := by
        rw [kv.convert_fmt hcvt]
        exact hcvt
      exact ⟨⟨rfl, rfl, rfl, rfl⟩, hagain, rfl⟩
  | ipcPsubStart pat cvt hash tportId => exact ⟨⟨rfl, rfl, rfl, rfl⟩, hconv⟩
  | ipcPsubStop pat cvt hash tportId => exact ⟨⟨rfl, rfl, rfl, rfl⟩, hconv⟩
  | queuePsubUpdate => exact absurd hplain Bool.false_ne_true
  | resizeBloom bloom console ipc => trivial

/-- A call that a peer can follow: a bloom that is rebuilt has the hashes that it had,
and a pattern that is stopped, also in another format than it was started in, has what
a route is started with. -/
def CallFollowed (kv : PeerKv) (db : SubDB) : Call → Prop
  | .resizeBloom bloom _ _ => bloom = true → db.indexBloom true true = db.bloom.bits
  | .psubStop ctx =>
    (db.patTab.tab.lookup ctx.key).isSome → (kv.fromPattern ctx.pat ctx.cvt).isSome
  | _ => True

theorem finishSub_patTab (kv : Kv) (db : SubDB) (ctx : SubArgs) (status : SubStatus) (n : ℕ) :
    (db.finishSub kv ctx status n).db.patTab = db.patTab :=
  (finishSub_spec kv db ctx status n).1.patTab

theorem told_runCall {c : Call} (hroutes : PatRoutesOk db.patTab) (hc : c.Plain kv.toKv)
    (hf : CallFollowed kv db c) :
    Told kv db (db.runCall kv.toKv c) ∧ PatRoutesOk (db.runCall kv.toKv c).db.patTab := by
  cases c with
  | subStart ctx mem =>
    refine ⟨told_subStart kv hc.1 hc.2.1 hc.2.2 mem, ?_⟩
    show PatRoutesOk (db.subStart kv.toKv ctx mem).db.patTab
    rw [subStart, finishSub_patTab, startSubTab, if_pos hc.1]
    exact hroutes
  | subStop ctx =>
    refine ⟨told_subStop kv hc.1 hc.2.1 hc.2.2, ?_⟩
    show PatRoutesOk (db.subStop kv.toKv ctx).db.patTab
    rw [subStop, finishSub_patTab, stopSubTab, if_pos hc.1]
    exact hroutes
  | psubStart ctx => exact told_psubStart kv hroutes hc.1.1 hc.1.2.1 hc.1.2.2.1 hc.1.2.2.2 hc.2
  | psubStop ctx => exact told_psubStop kv hroutes hc.1.1 hc.1.2.1 hc.1.2.2.1 hc.1.2.2.2 hc.2 hf
  | resizeBloom bloom console ipc =>
    refine ⟨⟨rfl, ?_⟩, hroutes⟩
    show (if bloom = true then _ else _) = _
    split
    · rename_i hb
      rw [hf hb]
    · rfl
  | none => exact ⟨⟨rfl, rfl⟩, hroutes⟩

end SubDB

/-! ## Runs -/

namespace BloomNet

variable (kv : PeerKv) (p : Prefixes)

/-- What may happen: changes without queues, whose patterns come from raikv, as long as
there are numbers for them. -/
def Allowed (s : BloomNet) : Event → Prop
  | .change e => e.isPlain = true ∧ e.Converted kv.toKv ∧ s.db.SeqnoFits
  | _ => True

/-- A change that the peers can follow. -/
def Followed (s : BloomNet) : Event → Prop
  | .change e => SubDB.CallFollowed kv s.db (s.db.call kv.toKv e)
  | _ => True

/-- The copy of a peer. -/
def copy (n : PeerSub) : Replica.Copy BloomRef := ⟨n.subSeqno, n.bloom⟩

/-- A message, with the change itself for what it does. -/
def told : PeerMsg → Replica.Msg BloomRef SubMsg
  | .sub m => .change m.seqno m
  | .bloom subSeqno bloom => .value subSeqno bloom

/-- The number of a message has 32 bits. -/
def FitsNum : PeerMsg → Prop
  | .sub m => m.seqno < 2 ^ 32
  | .bloom subSeqno _ => subSeqno < 2 ^ 32

/-- A peer takes a message as a copy does. -/
theorem copy_recvMsg (n : PeerSub) {m : PeerMsg} (hm : FitsNum m) :
    copy (recvMsg kv n m) = (copy n).recv (PeerSub.recvChange kv) (told m) := by
  cases m with
  | sub m =>
    have hmod : m.seqno % 2 ^ 32 = m.seqno := Nat.mod_eq_of_lt hm
    show copy (n.onMsg kv m) = if m.seqno = n.subSeqno + 1 then _ else _
    unfold PeerSub.onMsg
    split
    · simp only [copy, PeerSub.updateSubSeqno, hmod]
    · rfl
  | bloom subSeqno bloom =>
    have hmod : subSeqno % 2 ^ 32 = subSeqno := Nat.mod_eq_of_lt hm
    show copy (n.recvBloom subSeqno bloom) = if n.subSeqno ≤ subSeqno then _ else _
    unfold PeerSub.recvBloom
    split
    · simp only [copy, PeerSub.updateSubSeqno, hmod]
    · rfl

/-- The history has the changes so far, the peers follow it, and what was sent tells
it. -/
structure Inv (s : BloomNet) : Prop where
  fits : s.db.subSeqno < 2 ^ 32
  routes : SubDB.PatRoutesOk s.db.patTab
  current : s.numbered s.db.subSeqno = some s.db.bloom
  later : ∀ n, s.db.subSeqno < n → s.numbered n = none
  start : s.numbered 0 = some (peerInit p).bloom
  peers : ∀ i, (copy (s.peers i)).Follows s.numbered
  tells : ∀ m ∈ s.sent, (told m).Tells (PeerSub.recvChange kv) s.numbered ∧ FitsNum m

/-- The node adds its two prefixes in one order, and a peer in the other. -/
theorem addRoute_comm (b : BloomRef) (n₁ n₂ : ℕ) (h₁ h₂ : UInt32) :
    (b.addRoute n₁ h₁).addRoute n₂ h₂ = (b.addRoute n₂ h₂).addRoute n₁ h₁ := by
  have hcount : ((b.addRoute n₁ h₁).addRoute n₂ h₂).prefCount =
      ((b.addRoute n₂ h₂).addRoute n₁ h₁).prefCount := by
    ext n
    simp only [BloomRef.addRoute, Function.update_apply]
    grind
  have hbits : ((b.addRoute n₁ h₁).addRoute n₂ h₂).bits =
      ((b.addRoute n₂ h₂).addRoute n₁ h₁).bits := Multiset.cons_swap _ _ _
  exact congrArg₂ BloomRef.mk hcount hbits

theorem peerInit_bloom :
    (SubDB.init p.ibxLen p.ibxHash p.mchLen p.mchHash).bloom = (peerInit p).bloom :=
  addRoute_comm _ _ _ _ _

theorem inv_init : Inv kv p (init p) := by
  have hzero : (init p).numbered 0 = some (peerInit p).bloom := by
    rw [← peerInit_bloom]
    simp only [init, Function.update_self]
  refine ⟨by show 0 < 2 ^ 32; decide, ?_, ?_, ?_, hzero, fun i => hzero, ?_⟩
  · intro key rt h
    have hnone : (∅ : RouteVec PatRoute).lookup key = none := AList.lookup_empty key
    exact absurd (h.symm.trans hnone) (Option.some_ne_none _)
  · exact hzero.trans (congrArg some (peerInit_bloom p).symm)
  · intro n hn
    have hne : n ≠ 0 := Nat.ne_of_gt hn
    simp only [init, Function.update_of_ne hne]
  · exact fun m hm => absurd hm List.not_mem_nil

variable {kv p} {s : BloomNet}

/-- What is sent now has the number of the last change. -/
theorem Inv.send (h : Inv kv p s) {m : PeerMsg}
    (hm : (told m).Tells (PeerSub.recvChange kv) s.numbered ∧ FitsNum m) :
    Inv kv p { s with sent := s.sent ++ [m] } where
  fits := h.fits
  routes := h.routes
  current := h.current
  later := h.later
  start := h.start
  peers := h.peers
  tells := by
    intro m' hm'
    rcases List.mem_append.mp hm' with hold | hnew
    · exact h.tells m' hold
    · rw [List.mem_singleton.mp hnew]
      exact hm

theorem Inv.setPeer (h : Inv kv p s) (i : ℕ) {n : PeerSub}
    (hn : (copy n).Follows s.numbered) : Inv kv p (s.setPeer i n) where
  fits := h.fits
  routes := h.routes
  current := h.current
  later := h.later
  start := h.start
  peers := by
    intro j
    show (copy (Function.update s.peers i n j)).Follows s.numbered
    by_cases hj : j = i
    · rw [hj, Function.update_self]
      exact hn
    · rw [Function.update_of_ne hj]
      exact h.peers j
  tells := h.tells

theorem change_none {e : SubDB.Event}
    (h : (s.db.runCall kv.toKv (s.db.call kv.toKv e)).sent = none) :
    s.change kv e = { s with db := (s.db.runCall kv.toKv (s.db.call kv.toKv e)).db } := by
  rw [change]
  simp only [h]

theorem change_some {e : SubDB.Event} {m : SubMsg}
    (h : (s.db.runCall kv.toKv (s.db.call kv.toKv e)).sent = some m) :
    s.change kv e = { s with
      db := (s.db.runCall kv.toKv (s.db.call kv.toKv e)).db
      numbered := Function.update s.numbered m.seqno
        (some (s.db.runCall kv.toKv (s.db.call kv.toKv e)).db.bloom)
      sent := s.sent ++ [.sub m] } := by
  rw [change]
  simp only [h]

/-- A change with a number extends the history by one. -/
theorem Inv.change (h : Inv kv p s) {e : SubDB.Event} (ha : Allowed kv s (.change e))
    (hf : Followed kv s (.change e)) : Inv kv p (s.change kv e) := by
  obtain ⟨hplain, hconv, hfits⟩ := ha
  obtain ⟨htold, hroutes⟩ := SubDB.told_runCall kv h.routes
    (SubDB.call_plain kv s.db hplain hconv) hf
  unfold SubDB.Told at htold
  cases hsent : (s.db.runCall kv.toKv (s.db.call kv.toKv e)).sent with
  | none =>
    rw [hsent] at htold
    rw [change_none hsent]
    exact {
      fits := by rw [htold.1]; exact h.fits
      routes := hroutes
      current := by rw [htold.1, htold.2]; exact h.current
      later := by rw [htold.1]; exact h.later
      start := h.start
      peers := h.peers
      tells := h.tells }
  | some m =>
    rw [hsent, SubDB.nextSeqno_eq hfits] at htold
    obtain ⟨⟨hm, hseqno⟩, hbloom⟩ := htold
    rw [change_some hsent, hm]
    have hext : Replica.Extends s.numbered (Function.update s.numbered (s.db.subSeqno + 1)
        (some (s.db.runCall kv.toKv (s.db.call kv.toKv e)).db.bloom)) :=
      Replica.extends_update (h.later _ (Nat.lt_succ_self _)) _
    refine ⟨?_, hroutes, ?_, ?_, hext _ _ h.start, fun i => (h.peers i).mono hext, ?_⟩
    · rw [hseqno]
      exact hfits
    · rw [hseqno]
      exact Function.update_self _ _ _
    · intro n hn
      rw [hseqno] at hn
      refine (Function.update_of_ne (Nat.ne_of_gt hn) _ _).trans ?_
      exact h.later n (Nat.lt_trans (Nat.lt_succ_self _) hn)
    · intro m' hm'
      rcases List.mem_append.mp hm' with hold | hnew
      · exact ⟨(h.tells m' hold).1.mono hext, (h.tells m' hold).2⟩
      · rw [List.mem_singleton.mp hnew]
        refine ⟨⟨s.db.subSeqno, s.db.bloom, hm, hext _ _ h.current, ?_⟩, ?_⟩
        · rw [hm]
          exact (Function.update_self _ _ _).trans (congrArg some hbloom)
        · show m.seqno < 2 ^ 32
          rw [hm]
          exact hfits

theorem Inv.step (h : Inv kv p s) {e : Event} (ha : Allowed kv s e) (hf : Followed kv s e) :
    Inv kv p (step kv p s e) := by
  cases e with
  | change e => exact h.change ha hf
  | result => exact h.send ⟨h.current, h.fits⟩
  | relay i =>
    refine h.send ⟨h.peers i, ?_⟩
    -- the number of a copy is one of the history
    by_contra hge
    have hlater := h.later (s.peers i).subSeqno (Nat.lt_of_lt_of_le h.fits (Nat.le_of_not_lt hge))
    exact absurd ((h.peers i).symm.trans hlater) (Option.some_ne_none _)
  | recv i k =>
    show Inv kv p (match s.sent[k]? with | none => s | some m => _)
    cases hk : s.sent[k]? with
    | none => exact h
    | some m =>
      obtain ⟨htells, hnum⟩ := h.tells m (List.mem_of_getElem? hk)
      refine h.setPeer i ?_
      rw [copy_recvMsg kv (s.peers i) hnum]
      exact (h.peers i).recv htells
  | rejoin i => exact h.setPeer i h.start

/-- **The copies follow the node.** In every state of every run of a node without queue
subscriptions and of its peers, whatever is lost, repeated, reordered and passed on, the
copy that a peer has at a number is the bloom of the node just after the change of that
number, if a bloom that is rebuilt has the hashes that it had. -/
theorem copy_eq_numbered (kv : PeerKv) (p : Prefixes) {s : BloomNet}
    (h : Run.Reach (step kv p) (fun s e => Allowed kv s e ∧ Followed kv s e) (init p) s) (i : ℕ) :
    s.numbered (s.peers i).subSeqno = some (s.peers i).bloom := by
  have hinv : Inv kv p s := h.invariant (inv_init kv p) fun s e hs hok => hs.step hok.1 hok.2
  exact hinv.peers i

/-- Patterns are prefixes, and every one has a detail. -/
def prefixPeerKv : PeerKv where
  toKv := SubDB.prefixKv
  fromPattern _ _ := some .noDetail
  fromPattern_of_compile h := h
  convert_fmt h := by
    obtain rfl := Option.some.inj h
    rfl

def samplePrefixes : Prefixes := ⟨10, 1, 11, 2⟩

/-- A subject, a pattern and a stop, a bloom that is rebuilt, and a peer that gets the
first two changes in the wrong order, a bloom that another peer passes on, and the last
change twice. -/
theorem copy_eq_numbered_sample :
    let s := [.change (.ipcSubStart [65] 7 0 ∅), .change (.ipcPsubStart [65, 46, 62] ⟨0, 2⟩ 2 1),
      .recv 0 1, .recv 0 0, .recv 1 0, .recv 1 1, .relay 1, .change (.resizeBloom true true true),
      .change (.ipcSubStop [65] 7 0), .recv 0 2, .recv 0 3, .recv 0 3].foldl
      (step prefixPeerKv samplePrefixes) (init samplePrefixes)
    s.numbered (s.peers 0).subSeqno = some (s.peers 0).bloom := by
  refine copy_eq_numbered prefixPeerKv samplePrefixes (Run.Reach.foldl .start ?_) 0
  refine ⟨⟨⟨rfl, trivial, by decide⟩, trivial⟩, ⟨⟨rfl, ⟨rfl, rfl⟩, by decide⟩, trivial⟩,
    ⟨trivial, trivial⟩, ⟨trivial, trivial⟩, ⟨trivial, trivial⟩, ⟨trivial, trivial⟩,
    ⟨trivial, trivial⟩, ⟨⟨rfl, trivial, by decide⟩, fun _ => ?_⟩, ⟨⟨rfl, trivial, by decide⟩, trivial⟩,
    ⟨trivial, trivial⟩, ⟨trivial, trivial⟩, ⟨trivial, trivial⟩, trivial⟩
  decide

/-- A transport starts `A`, another one that has no reference stops it, and the bloom is
rebuilt: it has the hash again, without a number. The next change brings a peer that has
them all to a bloom without it. -/
def rebuiltAfterStop : BloomNet :=
  [.change (.ipcSubStart [65] 7 0 ∅), .change (.ipcSubStop [65] 7 1), .recv 0 0, .recv 0 1,
    .change (.resizeBloom true true true), .change (.ipcSubStart [66] 8 0 ∅), .recv 0 2].foldl
    (step prefixPeerKv samplePrefixes) (init samplePrefixes)

theorem reach_rebuiltAfterStop : Run.Reach (step prefixPeerKv samplePrefixes)
    (Allowed prefixPeerKv) (init samplePrefixes) rebuiltAfterStop := by
  refine Run.Reach.foldl .start ⟨⟨rfl, trivial, by decide⟩, ⟨rfl, trivial, by decide⟩, trivial,
    trivial, ⟨rfl, trivial, by decide⟩, ⟨rfl, trivial, by decide⟩, trivial, trivial⟩

theorem rebuilt_bloom_differs :
    ¬ ∀ (kv : PeerKv) (p : Prefixes) (s : BloomNet),
      Run.Reach (step kv p) (Allowed kv) (init p) s →
        ∀ i, s.numbered (s.peers i).subSeqno = some (s.peers i).bloom := by
  intro h
  have heq := h _ _ _ reach_rebuiltAfterStop 0
  have hnode : (rebuiltAfterStop.numbered (rebuiltAfterStop.peers 0).subSeqno).map BloomRef.bits =
      some {8, 7, 1, 2} := by
    decide
  have hpeer : (rebuiltAfterStop.peers 0).bloom.bits = {8, 1, 2} := by
    decide
  rw [heq, Option.map_some, hpeer] at hnode
  exact absurd hnode (by decide)

end BloomNet

end Raims
