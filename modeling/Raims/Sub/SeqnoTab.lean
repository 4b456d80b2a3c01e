import Raims.Sub.SubDB

/-!
# The window of sequence numbers (`SeqnoTab`)

For each subject received: the last sequence number of each publisher and the
subscription it was matched with. Sequence numbers have a time frame in their upper
29 bits and count in the lower 35. The entries are in three generations of tables;
an entry that is used comes to the newest, and a flip drops the oldest.
-/

namespace Raims

/-! ## Frames -/

def seqnoInit (time : UInt64) : UInt64 := (time >>> 33) <<< 35

def seqnoFrame (seqno : UInt64) : UInt64 := seqno >>> 35

def timeFrame (time : UInt64) : UInt64 := ((time >>> 33) <<< 35) >>> 35

def seqnoTime (seqno : UInt64) : UInt64 := (seqno >>> 35) <<< 33

def seqnoBase (seqno : UInt64) : UInt64 := seqno &&& (((1 : UInt64) <<< 35) - 1)

theorem toNat_seqnoFrame (seqno : UInt64) : (seqnoFrame seqno).toNat = seqno.toNat / 2 ^ 35 := by
  simp [seqnoFrame, UInt64.toNat_shiftRight, Nat.shiftRight_eq_div_pow]

/-- A time has two more bits of frames than a sequence number. -/
theorem toNat_timeFrame (time : UInt64) :
    (timeFrame time).toNat = time.toNat / 2 ^ 33 % 2 ^ 29 := by
  simp only [timeFrame, UInt64.toNat_shiftRight, UInt64.toNat_shiftLeft, UInt64.reduceToNat,
    Nat.reduceMod, Nat.shiftRight_eq_div_pow, Nat.shiftLeft_eq]
  omega

theorem toNat_seqnoTime (seqno : UInt64) :
    (seqnoTime seqno).toNat = seqno.toNat / 2 ^ 35 * 2 ^ 33 := by
  have hlt := seqno.toNat_lt
  simp only [seqnoTime, UInt64.toNat_shiftRight, UInt64.toNat_shiftLeft, UInt64.reduceToNat,
    Nat.reduceMod, Nat.shiftRight_eq_div_pow, Nat.shiftLeft_eq]
  omega

theorem toNat_seqnoBase (seqno : UInt64) : (seqnoBase seqno).toNat = seqno.toNat % 2 ^ 35 := by
  have hmask : ((1 : UInt64) <<< 35 - 1).toNat = 2 ^ 35 - 1 := rfl
  rw [seqnoBase, UInt64.toNat_and, hmask, Nat.and_two_pow_sub_one_eq_mod]

/-- The time of the start of a frame is in the frame. -/
theorem timeFrame_seqnoTime (seqno : UInt64) : timeFrame (seqnoTime seqno) = seqnoFrame seqno := by
  refine UInt64.toNat_inj.1 ?_
  have hlt := seqno.toNat_lt
  rw [toNat_timeFrame, toNat_seqnoTime, toNat_seqnoFrame]
  omega

/-! ## The entry of a subject -/

/-- `SeqnoSave`. -/
structure SeqnoSave where
  seqno : UInt64
  time : UInt64
  stamp : UInt64

/-- `UidSeqno`. -/
abbrev UidSeqno := AList fun _ : UInt32 => SeqnoSave

inductive SeqnoStatus where
  | uidFirst | uidCycle | uidNext | uidSkip | uidRepeat | notSubscr | error
deriving DecidableEq

/-- The message goes to the subscribers: `status <= SEQNO_UID_SKIP`. -/
def SeqnoStatus.accepted : SeqnoStatus → Bool
  | uidFirst | uidCycle | uidNext | uidSkip => true
  | uidRepeat | notSubscr | error => false

/-- `SeqnoArgs`. -/
structure SeqnoArgs where
  time : UInt64
  lastSeqno : UInt64
  lastTime : UInt64
  startSeqno : ℕ
  stamp : UInt64
  chainSeqno : UInt64
  cb : Option ℕ
  tportMask : Finset ℕ
  msgLoss : ℕ

/-- `SeqnoArgs()`. -/
def SeqnoArgs.new (stamp : UInt64) : SeqnoArgs :=
  ⟨0, 0, 0, 0, stamp, 0, none, ∅, 0⟩

/-- `SubSeqno`; the subject is its key. -/
structure SubSeqno where
  lastUid : UInt32
  lastSeqno : UInt64
  lastTime : UInt64
  lastStamp : UInt64
  startSeqno : ℕ
  updateSeqno : ℕ
  onData : Option ℕ
  seqnoHt : Option UidSeqno
  tportMask : Finset ℕ

/-- The constants and sizes of raikv. -/
structure SeqnoKv where
  /-- `EV_MAX_LOSS` -/
  maxMsgLoss : ℕ
  /-- `EV_PUB_RESTART` -/
  msgFrameLoss : ℕ
  /-- `IntHashTabT::mem_size` -/
  htSize : UidSeqno → UInt64
  /-- `RouteVec::mem_size` -/
  tabSize : RouteVec SubSeqno → UInt64
  /-- `PatRoute::match` -/
  patMatch : Subject → PatRoute → Subject → Bool

namespace SubSeqno

/-- `SubSeqno::init`. -/
def init (uid : UInt32) (seqno : UInt64) (start : ℕ) (time stamp : UInt64) (updSno : ℕ)
    (cb : Option ℕ) (mask : Finset ℕ) : SubSeqno :=
  ⟨uid, seqno, time, stamp, start, updSno, cb, none, mask⟩

/-- What `copy` leaves behind. -/
def copied (s : SubSeqno) : SubSeqno := { s with lastStamp := 0, seqnoHt := none }

/-- `restore_uid`: the last publisher is saved, and the one that published is
restored. -/
def restoreUid (s : SubSeqno) (uid : UInt32) (seqno time stamp : UInt64) :
    SubSeqno × SeqnoStatus :=
  let ht := (s.seqnoHt.getD ∅).insert s.lastUid ⟨s.lastSeqno, s.lastTime, s.lastStamp⟩
  match ht.lookup uid with
  | none =>
    ({ s with
        seqnoHt := some ht, lastUid := uid, lastSeqno := seqno, lastTime := time,
        lastStamp := stamp }, .uidFirst)
  | some v =>
    ({ s with
        seqnoHt := some ht, lastUid := uid, lastSeqno := v.seqno, lastTime := v.time,
        lastStamp := v.stamp }, .uidCycle)

/-- The end of `match_seqno`: the place of a sequence number after the last one of
its publisher. -/
def sequence (kv : SeqnoKv) (s : SubSeqno) (seqno time : UInt64) (ctx : SeqnoArgs) :
    SubSeqno × SeqnoArgs × SeqnoStatus :=
  let ctx := { ctx with lastSeqno := s.lastSeqno, lastTime := s.lastTime }
  let loss (n : UInt64) : ℕ := min n.toNat kv.maxMsgLoss % 2 ^ 16
  if seqno = s.lastSeqno + 1 then
    ({ s with lastSeqno := seqno, lastStamp := ctx.stamp }, ctx, .uidNext)
  else if seqnoFrame seqno = timeFrame s.lastTime then
    if s.lastSeqno < seqno then
      ({ s with lastSeqno := seqno, lastStamp := ctx.stamp },
        { ctx with msgLoss := loss (seqno - (s.lastSeqno + 1)) }, .uidSkip)
    else (s, ctx, .uidRepeat)
  else
    let s' := { s with lastTime := time, lastSeqno := seqno, lastStamp := ctx.stamp }
    if s.lastTime < time then
      if s.lastSeqno = ctx.chainSeqno then (s', ctx, .uidNext)
      else if seqnoFrame ctx.chainSeqno = seqnoFrame s.lastSeqno then
        (s', { ctx with msgLoss := loss (ctx.chainSeqno - s.lastSeqno) }, .uidSkip)
      else if seqnoBase seqno = 1 then (s', ctx, .uidCycle)
      else (s', { ctx with msgLoss := kv.msgFrameLoss % 2 ^ 16 }, .uidSkip)
    -- not in the frame of the last one, and not later
    else if seqnoBase seqno ≠ 1 then
      (s', { ctx with msgLoss := kv.msgFrameLoss % 2 ^ 16 }, .uidSkip)
    else (s', ctx, .uidCycle)

/-- A message of a publisher: its record is restored if another one published last. -/
def receive (kv : SeqnoKv) (s : SubSeqno) (uid : UInt32) (seqno time : UInt64) (ctx : SeqnoArgs) :
    SubSeqno × SeqnoArgs × SeqnoStatus :=
  if s.lastUid ≠ uid then
    let r := s.restoreUid uid seqno time ctx.stamp
    if r.2 = .uidFirst then (r.1, ctx, .uidFirst) else r.1.sequence kv seqno time ctx
  else s.sequence kv seqno time ctx

end SubSeqno

/-! ### The record of a publisher -/

namespace SubSeqno

variable {s : SubSeqno} {uid uid' : UInt32} (seqno time stamp : UInt64)

/-- The last of the publisher that published last. -/
def last (s : SubSeqno) : SeqnoSave := ⟨s.lastSeqno, s.lastTime, s.lastStamp⟩

/-- What an entry knows of a publisher. -/
def saved (s : SubSeqno) (uid : UInt32) : Option SeqnoSave :=
  if s.lastUid = uid then some s.last else s.seqnoHt.bind fun ht => ht.lookup uid

theorem saved_last : s.saved s.lastUid = some s.last := if_pos rfl

/-- The entry that `restore_uid` made knows the other publishers as before. -/
theorem saved_restoreUid_of_ne (hne : uid' ≠ uid) :
    (s.restoreUid uid seqno time stamp).1.saved uid' = s.saved uid' := by
  have hlookup : ((s.seqnoHt.getD ∅).insert s.lastUid s.last).lookup uid' = s.saved uid' := by
    by_cases hlast : s.lastUid = uid'
    · rw [← hlast, AList.lookup_insert, saved_last]
    · rw [AList.lookup_insert_ne (Ne.symm hlast), saved, if_neg hlast]
      cases s.seqnoHt <;> rfl
  simp only [restoreUid]
  split
  · rw [saved, if_neg (Ne.symm hne)]
    exact hlookup
  · rw [saved, if_neg (Ne.symm hne)]
    exact hlookup

theorem restoreUid_lastUid : (s.restoreUid uid seqno time stamp).1.lastUid = uid := by
  simp only [restoreUid]
  split <;> rfl

/-- A publisher that is not known starts with its message. -/
theorem restoreUid_none (h : s.lastUid ≠ uid) (hnone : s.saved uid = none) :
    (s.restoreUid uid seqno time stamp).2 = .uidFirst ∧
      (s.restoreUid uid seqno time stamp).1.saved uid = some ⟨seqno, time, stamp⟩ := by
  have hlookup : ((s.seqnoHt.getD ∅).insert s.lastUid s.last).lookup uid = none := by
    rw [AList.lookup_insert_ne (Ne.symm h)]
    rw [saved, if_neg h] at hnone
    cases hht : s.seqnoHt with
    | none => rfl
    | some ht =>
      rw [hht] at hnone
      exact hnone
  have hrestore : s.restoreUid uid seqno time stamp = ({ s with
      seqnoHt := some ((s.seqnoHt.getD ∅).insert s.lastUid s.last), lastUid := uid,
      lastSeqno := seqno, lastTime := time, lastStamp := stamp }, .uidFirst) := by
    rw [restoreUid]
    simp only [last] at hlookup
    simp only [hlookup]
    rfl
  rw [hrestore]
  exact ⟨rfl, if_pos rfl⟩

/-- A publisher that is known is restored. -/
theorem restoreUid_some {v : SeqnoSave} (h : s.lastUid ≠ uid) (hsome : s.saved uid = some v) :
    (s.restoreUid uid seqno time stamp).2 = .uidCycle ∧
      (s.restoreUid uid seqno time stamp).1.lastUid = uid ∧
      (s.restoreUid uid seqno time stamp).1.last = v := by
  have hlookup : ((s.seqnoHt.getD ∅).insert s.lastUid s.last).lookup uid = some v := by
    rw [AList.lookup_insert_ne (Ne.symm h)]
    rw [saved, if_neg h] at hsome
    cases hht : s.seqnoHt with
    | none =>
      rw [hht] at hsome
      cases hsome
    | some ht =>
      rw [hht] at hsome
      exact hsome
  have hrestore : s.restoreUid uid seqno time stamp = ({ s with
      seqnoHt := some ((s.seqnoHt.getD ∅).insert s.lastUid s.last), lastUid := uid,
      lastSeqno := v.seqno, lastTime := v.time, lastStamp := v.stamp }, .uidCycle) := by
    rw [restoreUid]
    simp only [last] at hlookup
    simp only [hlookup]
    rfl
  rw [hrestore]
  exact ⟨rfl, rfl, rfl⟩

end SubSeqno

/-- The time of a record is in the frame of its sequence number. -/
def SeqnoSave.InFrame (v : SeqnoSave) : Prop := timeFrame v.time = seqnoFrame v.seqno

instance (v : SeqnoSave) : Decidable v.InFrame := inferInstanceAs (Decidable (_ = _))

/-- A sequence number went in after the record, or was refused as a repeat. -/
def Sequenced (v v' : SeqnoSave) (seqno : UInt64) (status : SeqnoStatus) : Prop :=
  (status.accepted = true ∧ v.seqno < seqno ∧ v'.seqno = seqno ∧ v'.InFrame) ∨
    (status = .uidRepeat ∧ v' = v)

theorem lt_of_frame_lt {a b : UInt64} (h : seqnoFrame a < seqnoFrame b) : a < b := by
  rw [UInt64.lt_iff_toNat_lt, toNat_seqnoFrame, toNat_seqnoFrame] at h
  rw [UInt64.lt_iff_toNat_lt]
  omega

/-- The next one in the frame is greater, and in the frame: the count does not
start with 0. -/
theorem next_in_frame {a : UInt64} (hbase : seqnoBase (a + 1) ≠ 0)
    (hframe : seqnoFrame a ≤ seqnoFrame (a + 1)) :
    a < a + 1 ∧ seqnoFrame (a + 1) = seqnoFrame a := by
  have hlt := a.toNat_lt
  have hb : (seqnoBase (a + 1)).toNat ≠ 0 := fun h0 => hbase (UInt64.toNat_inj.1 h0)
  have hadd : (a + 1).toNat = (a.toNat + 1) % 2 ^ 64 := UInt64.toNat_add a 1
  rw [UInt64.le_iff_toNat_le, toNat_seqnoFrame, toNat_seqnoFrame, hadd] at hframe
  rw [toNat_seqnoBase, hadd] at hb
  refine ⟨?_, UInt64.toNat_inj.1 ?_⟩
  · rw [UInt64.lt_iff_toNat_lt, hadd]
    omega
  · rw [toNat_seqnoFrame, toNat_seqnoFrame, hadd]
    omega

theorem SubSeqno.sequence_keeps (kv : SeqnoKv) (s : SubSeqno) (seqno time : UInt64)
    (ctx : SeqnoArgs) :
    (s.sequence kv seqno time ctx).1.lastUid = s.lastUid ∧
      (s.sequence kv seqno time ctx).1.seqnoHt = s.seqnoHt := by
  simp only [sequence]
  split_ifs <;> exact ⟨rfl, rfl⟩

/-- A sequence number of a frame that is not older than the last one's is accepted
if it is greater than the last one, and otherwise a repeat. -/
theorem SubSeqno.sequence_spec (kv : SeqnoKv) {s : SubSeqno} {seqno time : UInt64}
    (ctx : SeqnoArgs) (hlast : s.last.InFrame) (htime : timeFrame time = seqnoFrame seqno)
    (hbase : seqnoBase seqno ≠ 0) (hframe : seqnoFrame s.lastSeqno ≤ seqnoFrame seqno) :
    Sequenced s.last (s.sequence kv seqno time ctx).1.last seqno
      (s.sequence kv seqno time ctx).2.2 := by
  have hin : timeFrame s.lastTime = seqnoFrame s.lastSeqno := hlast
  -- another frame is a later one
  have hlater (hne : seqnoFrame seqno ≠ timeFrame s.lastTime) : s.lastSeqno < seqno := by
    refine lt_of_frame_lt (UInt64.lt_of_le_of_ne hframe fun h => hne ?_)
    rw [hin, h]
  by_cases hnext : seqno = s.lastSeqno + 1
  · subst hnext
    obtain ⟨hlt, heq⟩ := next_in_frame hbase hframe
    simp only [sequence, if_true]
    exact .inl ⟨rfl, hlt, rfl, hin.trans heq.symm⟩
  · by_cases hsame : seqnoFrame seqno = timeFrame s.lastTime
    · by_cases hlt : s.lastSeqno < seqno
      · simp only [sequence, if_neg hnext, if_pos hsame, if_pos hlt]
        exact .inl ⟨rfl, hlt, rfl, hsame.symm⟩
      · simp only [sequence, if_neg hnext, if_pos hsame, if_neg hlt]
        exact .inr ⟨rfl, rfl⟩
    · simp only [sequence, if_neg hnext, if_neg hsame]
      split_ifs <;> exact .inl ⟨rfl, hlater hsame, rfl, htime⟩

namespace SubSeqno

variable (kv : SeqnoKv) {s : SubSeqno} {uid uid' : UInt32} {seqno time : UInt64} (ctx : SeqnoArgs)

theorem saved_sequence_of_ne (hne : uid' ≠ s.lastUid) :
    (s.sequence kv seqno time ctx).1.saved uid' = s.saved uid' := by
  obtain ⟨huid, hht⟩ := sequence_keeps kv s seqno time ctx
  rw [saved, saved, huid, hht, if_neg (Ne.symm hne), if_neg (Ne.symm hne)]

/-- A message leaves the records of the other publishers as they are. -/
theorem saved_receive_of_ne (s : SubSeqno) (seqno time : UInt64) (hne : uid' ≠ uid) :
    (s.receive kv uid seqno time ctx).1.saved uid' = s.saved uid' := by
  rw [receive]
  split
  · have hrestore : (s.restoreUid uid seqno time ctx.stamp).1.saved uid' = s.saved uid' :=
      saved_restoreUid_of_ne _ _ _ hne
    dsimp only
    split
    · exact hrestore
    · rw [saved_sequence_of_ne, hrestore]
      rw [restoreUid_lastUid]
      exact hne
  · next huid =>
      rw [ne_eq, not_not] at huid
      exact saved_sequence_of_ne kv ctx (huid ▸ hne)

/-- A publisher that is not known is first. -/
theorem receive_none (seqno time : UInt64) (hnone : s.saved uid = none) :
    (s.receive kv uid seqno time ctx).2.2 = .uidFirst ∧
      (s.receive kv uid seqno time ctx).1.saved uid = some ⟨seqno, time, ctx.stamp⟩ := by
  have huid : s.lastUid ≠ uid := by
    rintro rfl
    rw [saved_last] at hnone
    cases hnone
  obtain ⟨hfirst, hsaved⟩ := restoreUid_none seqno time ctx.stamp huid hnone
  simp only [receive, if_pos huid, if_pos hfirst]
  exact ⟨trivial, hsaved⟩

/-- A publisher that is known goes on in an entry that has its record as the last. -/
theorem receive_eq_sequence (seqno time : UInt64) (ctx : SeqnoArgs) {v : SeqnoSave}
    (hsome : s.saved uid = some v) :
    ∃ s' : SubSeqno, s'.lastUid = uid ∧ s'.last = v ∧
      s.receive kv uid seqno time ctx = s'.sequence kv seqno time ctx := by
  by_cases huid : s.lastUid = uid
  · refine ⟨s, huid, ?_, if_neg (not_not.2 huid)⟩
    rw [← huid, saved_last] at hsome
    exact Option.some.inj hsome
  · obtain ⟨hcycle, huid', hlast⟩ := restoreUid_some seqno time ctx.stamp huid hsome
    refine ⟨_, huid', hlast, ?_⟩
    simp [receive, huid, hcycle]

/-- After the sequence the record of the publisher is the last one. -/
theorem saved_sequence_last (huid : s.lastUid = uid) :
    (s.sequence kv seqno time ctx).1.saved uid = some (s.sequence kv seqno time ctx).1.last := by
  rw [saved, if_pos ((sequence_keeps kv s seqno time ctx).1.trans huid)]

/-- A publisher that is known goes on from its record. -/
theorem receive_some {v : SeqnoSave} (hsome : s.saved uid = some v) (hv : v.InFrame)
    (htime : timeFrame time = seqnoFrame seqno) (hbase : seqnoBase seqno ≠ 0)
    (hframe : seqnoFrame v.seqno ≤ seqnoFrame seqno) :
    ∃ v', (s.receive kv uid seqno time ctx).1.saved uid = some v' ∧
      Sequenced v v' seqno (s.receive kv uid seqno time ctx).2.2 := by
  obtain ⟨s', huid, hlast, heq⟩ := receive_eq_sequence kv seqno time ctx hsome
  rw [heq]
  subst hlast
  exact ⟨_, saved_sequence_last kv ctx huid, sequence_spec kv ctx hv htime hbase hframe⟩

end SubSeqno

/-! ## The table -/

/-- `SeqnoTab`, less the history and the maxima that are shown. -/
structure SeqnoTab where
  tab : RouteVec SubSeqno
  tabOld : RouteVec SubSeqno
  tabOld2 : RouteVec SubSeqno
  flipTime : UInt64
  trailingTime : UInt64
  seqnoHtSize : UInt64
  oldHtSize : UInt64
  oldHtSize2 : UInt64

namespace SeqnoTab

/-- A table after `SessionMgr::start`. -/
def new (curTime windowIval : UInt64) : SeqnoTab :=
  ⟨∅, ∅, ∅, curTime, curTime - windowIval, 0, 0, 0⟩

variable (t : SeqnoTab) (key : RouteKey)

/-- `SeqnoTab::find`. -/
def find : Option SubSeqno :=
  match t.tab.lookup key with
  | some p => some p
  | none =>
    match t.tabOld.lookup key with
    | some p => some p
    | none => t.tabOld2.lookup key

/-- `SeqnoTab::upsert`, with the generation (`which`) where the entry was. A new
entry is none: it is in the table when it is set. -/
def upsert : SeqnoTab × Option SubSeqno × ℕ :=
  match t.tab.lookup key with
  | some p => (t, some p, 0)
  | none =>
    match t.tabOld.lookup key with
    | some p2 =>
      ({ t with tab := t.tab.insert key p2, tabOld := t.tabOld.insert key p2.copied }, some p2, 1)
    | none =>
      match t.tabOld2.lookup key with
      | some p3 =>
        ({ t with tab := t.tab.insert key p3, tabOld2 := t.tabOld2.insert key p3.copied },
          some p3, 2)
      | none => (t, none, 0)

/-- What is stored through the pointer that `upsert` gave. -/
def set (s : SubSeqno) : SeqnoTab := { t with tab := t.tab.insert key s }

/-- `SeqnoTab::remove`. The generation before the last is looked at only if the
entry was there or in the one after it. -/
def remove (which : ℕ) : SeqnoTab :=
  let which := if which = 0 ∧ (t.tabOld.lookup key).isSome then 1 else which
  let which2 := if which = 1 ∧ (t.tabOld2.lookup key).isSome then 2 else which
  { t with
    tab := t.tab.erase key
    tabOld := if which = 1 then t.tabOld.erase key else t.tabOld
    tabOld2 := if which2 = 2 then t.tabOld2.erase key else t.tabOld2 }

/-- `SeqnoTab::flip`. -/
def flip (kv : SeqnoKv) (winSize : UInt64) (winCount : ℕ) (curTime : UInt64)
    (doubleTime quadTime : Bool) : SeqnoTab :=
  let sz := kv.tabSize t.tab + t.seqnoHtSize
  let oldSz := if quadTime then kv.tabSize t.tabOld + t.oldHtSize + t.oldHtSize2 else 0
  if winSize * 2 < oldSz ∨ winSize < sz then
    if doubleTime ∨ winCount < t.tab.entries.length then
      { t with
        tab := ∅
        tabOld := t.tab
        tabOld2 := t.tabOld
        oldHtSize2 := t.oldHtSize
        oldHtSize := t.seqnoHtSize
        seqnoHtSize := 0
        trailingTime := t.flipTime
        flipTime := curTime }
    else t
  else t

/-! ### What the tables hold -/

section Holds

variable {t} {key} {key' : RouteKey} {s s' : SubSeqno}

/-- The entry is in one of the generations. -/
def Holds (t : SeqnoTab) (key : RouteKey) (s : SubSeqno) : Prop :=
  t.tab.lookup key = some s ∨ t.tabOld.lookup key = some s ∨ t.tabOld2.lookup key = some s

theorem find_holds (h : t.find key = some s) : t.Holds key s := by
  rw [find] at h
  split at h
  · next p hp =>
      cases h
      exact .inl hp
  · split at h
    · next p hp =>
        cases h
        exact .inr (.inl hp)
    · exact .inr (.inr h)

theorem upsert_entry (t : SeqnoTab) (key : RouteKey) : (t.upsert key).2.1 = t.find key := by
  cases h1 : t.tab.lookup key with
  | some p => simp [upsert, find, h1]
  | none =>
    cases h2 : t.tabOld.lookup key with
    | some p => simp [upsert, find, h1, h2]
    | none => cases h3 : t.tabOld2.lookup key <;> simp [upsert, find, h1, h2, h3]

theorem upsert_find_of_ne (h : key' ≠ key) : (t.upsert key).1.find key' = t.find key' := by
  cases h1 : t.tab.lookup key with
  | some p => simp [upsert, h1]
  | none =>
    cases h2 : t.tabOld.lookup key with
    | some p => simp [upsert, find, h1, h2, AList.lookup_insert_ne h]
    | none => cases h3 : t.tabOld2.lookup key <;> simp [upsert, find, h1, h2, h3, AList.lookup_insert_ne h]

/-- An entry after an insert is the one inserted, or it was there. -/
theorem lookup_insert_cases {tab : RouteVec SubSeqno}
    (h : (tab.insert key s).lookup key' = some s') :
    (key' = key ∧ s' = s) ∨ tab.lookup key' = some s' := by
  by_cases hkey : key' = key
  · subst hkey
    rw [AList.lookup_insert] at h
    exact .inl ⟨rfl, (Option.some.inj h).symm⟩
  · rw [AList.lookup_insert_ne hkey] at h
    exact .inr h

theorem lookup_erase_cases {tab : RouteVec SubSeqno} (h : (tab.erase key).lookup key' = some s) :
    tab.lookup key' = some s := by
  by_cases hkey : key' = key
  · subst hkey
    rw [AList.lookup_erase] at h
    cases h
  · rwa [AList.lookup_erase_ne hkey] at h

theorem upsert_holds (h : (t.upsert key).1.Holds key' s) :
    t.Holds key' s ∨ ∃ s₀, t.Holds key' s₀ ∧ s = s₀.copied := by
  rw [upsert] at h
  split at h
  · exact .inl h
  · split at h
    · next p2 hold =>
        rcases h with h | h | h
        · rcases lookup_insert_cases h with ⟨rfl, rfl⟩ | h
          · exact .inl (.inr (.inl hold))
          · exact .inl (.inl h)
        · rcases lookup_insert_cases h with ⟨rfl, rfl⟩ | h
          · exact .inr ⟨p2, .inr (.inl hold), rfl⟩
          · exact .inl (.inr (.inl h))
        · exact .inl (.inr (.inr h))
    · split at h
      · next p3 hold =>
          rcases h with h | h | h
          · rcases lookup_insert_cases h with ⟨rfl, rfl⟩ | h
            · exact .inl (.inr (.inr hold))
            · exact .inl (.inl h)
          · exact .inl (.inr (.inl h))
          · rcases lookup_insert_cases h with ⟨rfl, rfl⟩ | h
            · exact .inr ⟨p3, .inr (.inr hold), rfl⟩
            · exact .inl (.inr (.inr h))
      · exact .inl h

theorem set_holds (h : (t.set key s).Holds key' s') :
    (key' = key ∧ s' = s) ∨ t.Holds key' s' := by
  rcases h with h | h | h
  · exact (lookup_insert_cases h).imp_right .inl
  · exact .inr (.inr (.inl h))
  · exact .inr (.inr (.inr h))

theorem set_find (t : SeqnoTab) (key : RouteKey) (s : SubSeqno) : (t.set key s).find key = some s := by
  simp [find, set]

theorem set_find_of_ne (h : key' ≠ key) : (t.set key s).find key' = t.find key' := by
  simp only [find, set, AList.lookup_insert_ne h]

theorem remove_holds {which : ℕ} (h : (t.remove key which).Holds key' s) : t.Holds key' s := by
  have hlookup (tab : RouteVec SubSeqno) (p : Prop) [Decidable p]
      (h : (if p then tab.erase key else tab).lookup key' = some s) :
      tab.lookup key' = some s := by
    split at h
    · exact lookup_erase_cases h
    · exact h
  rcases h with h | h | h
  · exact .inl (lookup_erase_cases h)
  · exact .inr (.inl (hlookup _ _ h))
  · exact .inr (.inr (hlookup _ _ h))

theorem remove_find_of_ne {which : ℕ} (h : key' ≠ key) :
    (t.remove key which).find key' = t.find key' := by
  have hlookup (tab : RouteVec SubSeqno) (p : Prop) [Decidable p] :
      (if p then tab.erase key else tab).lookup key' = tab.lookup key' := by
    split
    · exact AList.lookup_erase_ne h
    · rfl
  simp only [find, remove, hlookup, AList.lookup_erase_ne h]

variable {kv : SeqnoKv} {winSize curTime : UInt64} {winCount : ℕ} {doubleTime quadTime : Bool}

/-- A flip is put off, or it drops the oldest generation. -/
theorem flip_cases (t : SeqnoTab) (kv : SeqnoKv) (winSize : UInt64) (winCount : ℕ)
    (curTime : UInt64) (doubleTime quadTime : Bool) :
    let t' := t.flip kv winSize winCount curTime doubleTime quadTime
    t' = t ∨ (t'.tab = ∅ ∧ t'.tabOld = t.tab ∧ t'.tabOld2 = t.tabOld) := by
  simp only [flip]
  split_ifs
  any_goals exact .inl rfl
  all_goals exact .inr ⟨rfl, rfl, rfl⟩

theorem flip_holds (h : (t.flip kv winSize winCount curTime doubleTime quadTime).Holds key s) :
    t.Holds key s := by
  rcases flip_cases t kv winSize winCount curTime doubleTime quadTime with
    heq | ⟨htab, hold, hold2⟩
  · rwa [heq] at h
  · rw [Holds, htab, hold, hold2] at h
    rcases h with h | h | h
    · cases h
    · exact .inl h
    · exact .inr (.inl h)

/-- An entry that is found after a flip is the one found before. -/
theorem flip_find (h : (t.flip kv winSize winCount curTime doubleTime quadTime).find key = some s) :
    t.find key = some s := by
  rcases flip_cases t kv winSize winCount curTime doubleTime quadTime with
    heq | ⟨htab, hold, hold2⟩
  · rwa [heq] at h
  · have hnone : (∅ : RouteVec SubSeqno).lookup key = none := rfl
    rw [find, htab, hold, hold2, hnone] at h
    rw [find]
    cases h1 : t.tab.lookup key with
    | some p =>
      rw [h1] at h
      exact h
    | none =>
      rw [h1] at h
      dsimp only at h ⊢
      rw [h]

end Holds

end SeqnoTab

end Raims
