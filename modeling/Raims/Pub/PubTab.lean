import Raims.Sub.SeqnoTab

/-!
# The window of published sequence numbers (`PubTab`)

For each subject published: the last sequence number. A subject that is new, or
whose frame is behind the window, starts again in the frame of the current time.
The entries are in two generations; an entry that is used comes to the newer, and a
flip drops the older.
-/

namespace Raims

/-! ## The entry of a subject -/

/-- `Pub`; the subject is its key. -/
structure Pub where
  seqno : UInt64
  stamp : UInt64
deriving DecidableEq

/-- What `next_seqno` gives a message. -/
structure Stamped where
  seqno : UInt64
  time : UInt64
  chainSeqno : UInt64
  lastSeqno : UInt64

namespace Pub

/-- `Pub::init`. -/
def init (time : UInt64) : Pub := ⟨seqnoInit time, time⟩

/-- What `copy` leaves behind. -/
def copied (p : Pub) : Pub := { p with stamp := 0 }

/-- `Pub::next_seqno`. -/
def nextSeqno (p : Pub) (isNew : Bool) (curFrame oldFrame : UInt64) : Pub × Stamped :=
  if isNew then
    let sequence := (init curFrame).seqno + 1
    (⟨sequence, curFrame⟩, ⟨sequence, curFrame, 0, p.seqno⟩)
  else if seqnoFrame p.seqno ≤ timeFrame oldFrame ∨ seqnoBase (p.seqno + 1) = 0 then
    let sequence := (init curFrame).seqno + 1
    (⟨sequence, curFrame⟩, ⟨sequence, curFrame, p.seqno, p.seqno⟩)
  else
    let sequence := p.seqno + 1
    (⟨sequence, curFrame⟩, ⟨sequence, curFrame, 0, p.seqno⟩)

end Pub

/-! ## The table -/

/-- `PubTab`, less the history and the maxima that are shown. -/
structure PubTab where
  pub : RouteVec Pub
  pubOld : RouteVec Pub
  flipTime : UInt64
  trailingTime : UInt64

/-- The sizes and hashes of raikv. -/
structure PubKv where
  /-- `RouteVec::mem_size` -/
  tabSize : RouteVec Pub → UInt64
  /-- `kv_crc_c` of a subject -/
  subjectHash : Subject → UInt32

namespace PubTab

/-- A table after `SessionMgr::start`. -/
def new (curTime windowIval : UInt64) : PubTab := ⟨∅, ∅, curTime, curTime - windowIval⟩

variable (t : PubTab) (key : RouteKey)

/-- `PubTab::find`. -/
def find : Option Pub :=
  match t.pub.lookup key with
  | some p => some p
  | none => t.pubOld.lookup key

/-- `PubTab::upsert`; it is new when neither generation has it. -/
def upsert : PubTab × Pub × Bool :=
  match t.pub.lookup key with
  | some p => (t, p, false)
  | none =>
    match t.pubOld.lookup key with
    | some p2 =>
      ({ t with pub := t.pub.insert key p2, pubOld := t.pubOld.insert key p2.copied }, p2, false)
    | none => ({ t with pub := t.pub.insert key (Pub.init 0) }, Pub.init 0, true)

/-- What is stored through the pointer that `upsert` gave. -/
def set (p : Pub) : PubTab := { t with pub := t.pub.insert key p }

/-- `upsert`, then `next_seqno` of the entry. -/
def stamp (curFrame oldFrame : UInt64) : PubTab × Stamped :=
  let r := t.upsert key
  let s := r.2.1.nextSeqno r.2.2 curFrame oldFrame
  (r.1.set key s.1, s.2)

/-- `PubTab::flip`, and whether it did. -/
def flip (kv : PubKv) (winSize : UInt64) (winCount : ℕ) (curTime : UInt64)
    (doubleTime quadTime : Bool) : PubTab × Bool :=
  let sz := kv.tabSize t.pub
  let oldSz := if quadTime then kv.tabSize t.pubOld else 0
  if (winSize < oldSz ∨ winSize < sz) ∧ (doubleTime ∨ winCount < t.pub.entries.length) then
    (⟨∅, t.pub, curTime, t.flipTime⟩, true)
  else (t, false)

end PubTab

/-! ## Frames that ascend -/

/-- Below `2^62` ns a time has no more frames than a sequence number. -/
theorem toNat_timeFrame_of_lt {time : UInt64} (h : time.toNat < 2 ^ 62) :
    (timeFrame time).toNat = time.toNat / 2 ^ 33 := by
  rw [toNat_timeFrame]
  omega

theorem toNat_seqnoInit_succ (time : UInt64) :
    (seqnoInit time + 1).toNat = (timeFrame time).toNat * 2 ^ 35 + 1 := by
  have hlt : (seqnoInit time).toNat = (timeFrame time).toNat * 2 ^ 35 := by
    rw [toNat_timeFrame]
    simp only [seqnoInit, UInt64.toNat_shiftRight, UInt64.toNat_shiftLeft, UInt64.reduceToNat,
      Nat.reduceMod, Nat.shiftRight_eq_div_pow, Nat.shiftLeft_eq]
    omega
  have hframe : (timeFrame time).toNat < 2 ^ 29 := by
    rw [toNat_timeFrame]
    exact Nat.mod_lt _ (by decide)
  rw [UInt64.toNat_add, hlt, UInt64.toNat_one]
  omega

/-- The first number of a frame is in it. -/
theorem seqnoFrame_seqnoInit_succ (time : UInt64) :
    seqnoFrame (seqnoInit time + 1) = timeFrame time := by
  refine UInt64.toNat_inj.1 ?_
  rw [toNat_seqnoFrame, toNat_seqnoInit_succ]
  omega

/-- A number whose base does not wrap is followed by one of its frame. -/
theorem toNat_succ_of_base {seqno : UInt64} (h : seqnoBase (seqno + 1) ≠ 0) :
    (seqno + 1).toNat = seqno.toNat + 1 ∧ seqnoFrame (seqno + 1) = seqnoFrame seqno := by
  have hbase : (seqnoBase (seqno + 1)).toNat ≠ 0 := fun h0 => h (UInt64.toNat_inj.1 h0)
  rw [toNat_seqnoBase, UInt64.toNat_add, UInt64.toNat_one] at hbase
  have hlt := seqno.toNat_lt
  have hsucc : (seqno + 1).toNat = seqno.toNat + 1 := by
    rw [UInt64.toNat_add, UInt64.toNat_one]
    omega
  refine ⟨hsucc, UInt64.toNat_inj.1 ?_⟩
  rw [toNat_seqnoFrame, toNat_seqnoFrame, hsucc]
  omega

/-! ## What an operation does to the table -/

namespace PubTab

variable (t : PubTab) (key : RouteKey) (curFrame oldFrame : UInt64)

/-- The number after the last one of an entry. -/
def nextOf (last : Option Pub) : UInt64 :=
  match last with
  | none => seqnoInit curFrame + 1
  | some p =>
    if seqnoFrame p.seqno ≤ timeFrame oldFrame ∨ seqnoBase (p.seqno + 1) = 0 then
      seqnoInit curFrame + 1
    else p.seqno + 1

theorem upsert_find :
    (t.upsert key).2.2 = (t.find key).isNone ∧
      ∀ p, t.find key = some p → (t.upsert key).2.1 = p := by
  unfold upsert find
  cases hpub : t.pub.lookup key with
  | some p => simp
  | none =>
    cases hold : t.pubOld.lookup key with
    | some p2 => simp
    | none => simp

/-- The number is the one after the last, in either generation. -/
theorem stamp_seqno :
    (t.stamp key curFrame oldFrame).2.seqno = nextOf curFrame oldFrame (t.find key) := by
  obtain ⟨hnew, hlast⟩ := t.upsert_find key
  rw [stamp, Pub.nextSeqno, hnew]
  cases hfind : t.find key with
  | none => rfl
  | some p =>
    rw [hlast p hfind]
    simp only [Option.isNone_some, Bool.false_eq_true, if_false, nextOf]
    split
    · rfl
    · rfl

/-- The entry comes to the newer generation with its number. -/
theorem stamp_lookup_self :
    ((t.stamp key curFrame oldFrame).1.pub.lookup key) =
      some ⟨(t.stamp key curFrame oldFrame).2.seqno, curFrame⟩ := by
  simp only [stamp, set, AList.lookup_insert, Pub.nextSeqno]
  split
  · rfl
  · split
    · rfl
    · rfl

/-- The other entries stay where they are. -/
theorem stamp_lookup_of_ne {k : RouteKey} (hne : k ≠ key) :
    (t.stamp key curFrame oldFrame).1.pub.lookup k = t.pub.lookup k ∧
      (t.stamp key curFrame oldFrame).1.pubOld.lookup k = t.pubOld.lookup k := by
  simp only [stamp, set, AList.lookup_insert_ne hne]
  unfold upsert
  split
  · exact ⟨rfl, rfl⟩
  · split
    · exact ⟨AList.lookup_insert_ne hne, AList.lookup_insert_ne hne⟩
    · exact ⟨AList.lookup_insert_ne hne, rfl⟩

theorem stamp_flipTime : (t.stamp key curFrame oldFrame).1.flipTime = t.flipTime := by
  simp only [stamp, set]
  unfold upsert
  split
  · rfl
  · split <;> rfl

theorem flip_cases (kv : PubKv) (winSize : UInt64) (winCount : ℕ) (curTime : UInt64)
    (doubleTime quadTime : Bool) :
    t.flip kv winSize winCount curTime doubleTime quadTime = (t, false) ∨
      t.flip kv winSize winCount curTime doubleTime quadTime =
        (⟨∅, t.pub, curTime, t.flipTime⟩, true) := by
  simp only [flip]
  generalize (if quadTime = true then kv.tabSize t.pubOld else 0) = oldSz
  split
  · exact Or.inr rfl
  · exact Or.inl rfl

end PubTab

end Raims
