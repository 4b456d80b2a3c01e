import Raims.LinkState.AdjacencyMsg
import Raims.LinkState.Pending
import Raims.Lib.KeyedRecords
import Raims.Msg.RoundTrip

/-!
# A link state that is received (`decode_rec_list`, `recv_adjacency_result`)

The records of `adjacency_submsg` have no mark between them: one ends where a field
comes again. The receiver of a link state empties the sets it has of the user and
applies the records, so that its table is the sender's, member by member, as far as
the users have a bridge id to be named by.
-/

namespace Raims

open Bytes

/-! ## §1 Reading the records -/

/-- `Nonce::copy_from`. -/
def bytesNonce (b : List UInt8) : Nonce := BitVec.ofNat 128 (ofBe b)

theorem bytesNonce_nonceBytes (nonce : Nonce) : bytesNonce (nonceBytes nonce).1 = nonce := by
  have hlt : nonce.toNat < 256 ^ 16 := nonce.isLt
  rw [bytesNonce, nonceBytes, ofBe_be hlt, BitVec.ofNat_toNat, BitVec.setWidth_eq]

/-- The iterator over the fields of a message inside of a message (`TibSassMsg`):
it gives the ids and the values of what the writers put out, in order. -/
structure FieldIter where
  fields : List UInt8 → List (UInt8 × FldValue)
  reads : ∀ fs : List Fld, (∀ f ∈ fs, f.Fits) →
    fields (fs.flatMap Fld.bytes) = fs.map fun f => (f.opt, f.value)

namespace FieldIter

/-- One field at the front of the bytes, and the bytes after it. -/
def next (b : List UInt8) : (UInt8 × FldValue) × List UInt8 :=
  let bits := ofBe (b.take 2)
  let cls := fidType bits
  let lenSz := (RawFld.lenBytes cls 0).length
  let size := if lenSz = 0 then fidSize cls else ofBe ((b.drop 2).take lenSz)
  let rest := b.drop (2 + lenSz)
  ((fidValue bits, .ofBytes (clsToMd cls) (rest.take size)), rest.drop (size + size % 2))

def run : ℕ → List UInt8 → List (UInt8 × FldValue)
  | 0, _ => []
  | fuel + 1, b => if b = [] then [] else (next b).1 :: run fuel (next b).2

theorem next_bytes {r : RawFld} (h : r.Fits) (rest : List UInt8) :
    next (r.bytes ++ rest) = ((r.opt, r.value), rest) := by
  have hbits : ofBe ((r.bytes ++ rest).take 2) = r.cls.cls ||| r.opt.toNat := by
    rw [RawFld.bytes, List.append_assoc, List.take_append_of_le_length (by simp),
      List.take_of_length_le (by simp), fidWord, ofBe_be (word_lt _ _)]
  have htail : (r.bytes ++ rest).drop 2 = RawFld.lenBytes r.cls r.payload.length ++
      (r.payload ++ (padding r.payload.length ++ rest)) := by
    rw [RawFld.bytes, List.append_assoc, List.drop_left' (length_fidWord _ _)]
    simp
  have hlen : (RawFld.lenBytes r.cls 0).length =
      (RawFld.lenBytes r.cls r.payload.length).length := by
    cases r.cls <;> simp [RawFld.lenBytes]
  have hsize : (if (RawFld.lenBytes r.cls 0).length = 0 then fidSize r.cls
      else ofBe (RawFld.lenBytes r.cls r.payload.length)) = r.payload.length := by
    obtain ⟨c, opt, data⟩ := r
    cases c
    case shortString => exact ofBe_be h
    case longOpaque => exact ofBe_be h
    case unused => exact h.elim
    all_goals exact Eq.symm h
  unfold next
  simp only [hbits, fidType_word, fidValue_word, htail, ← List.drop_drop]
  rw [List.take_left' hlen.symm, hsize, List.drop_left' hlen.symm, List.take_left, List.drop_left,
    List.drop_left' (length_padding _)]
  rfl

theorem run_bytes (fs : List Fld) (h : ∀ f ∈ fs, f.Fits) {fuel : ℕ}
    (hfuel : (fs.flatMap Fld.bytes).length ≤ fuel) :
    run fuel (fs.flatMap Fld.bytes) = fs.map fun f => (f.opt, f.value) := by
  induction fs generalizing fuel with
  | nil => cases fuel <;> rfl
  | cons f fs ih =>
    have hf := h f List.mem_cons_self
    have hlt : 2 < f.bytes.length := by
      rw [Fld.bytes_raw hf]
      exact (Fld.raw_fits hf).two_lt
    rw [List.flatMap_cons, List.length_append] at hfuel
    obtain ⟨fuel, rfl⟩ : ∃ k, fuel = k + 1 := ⟨fuel - 1, by omega⟩
    have hne : f.bytes ++ fs.flatMap Fld.bytes ≠ [] := by
      intro h0
      simp [List.append_eq_nil_iff.mp h0] at hlt
    rw [List.flatMap_cons, run, if_neg hne, Fld.bytes_raw hf, next_bytes (Fld.raw_fits hf),
      Fld.raw_opt, Fld.raw_value, ih (fun g hg => h g (List.mem_cons_of_mem _ hg)) (by omega)]
    rfl

/-- An iterator that goes through the bytes. -/
def inOrder : FieldIter where
  fields b := run b.length b
  reads fs h := run_bytes fs h le_rfl

end FieldIter

/-- `cvt_number`, of the values that are numbers. -/
def FldValue.number : FldValue → ℕ
  | .uint n => n
  | .bool b => b.toNat
  | _ => 0

/-- The bytes of a string or of opaque data. -/
def FldValue.octets : FldValue → List UInt8
  | .string s | .data s => s
  | _ => []

namespace AdjacencyRec

/-- `AdjacencyRec( )`. -/
def new : AdjacencyRec :=
  ⟨none, [], [], none, AdjCost.const COST_DEFAULT, none, none, true⟩

/-- `set_field`. -/
def setField (rec : AdjacencyRec) (f : UInt8 × FldValue) : AdjacencyRec :=
  if f.1 = MsgFid.tportid.code then { rec with tportid := some (f.2.number % 2 ^ 32) }
  else if f.1 = MsgFid.adjCost.code then { rec with cost := (AdjCost.parse f.2.octets).1 }
  else if f.1 = MsgFid.tport.code then { rec with tportName := f.2.octets }
  else if f.1 = MsgFid.tportType.code then { rec with tportType := f.2.octets }
  else if f.1 = MsgFid.bridge.code then { rec with nonce := some (bytesNonce f.2.octets) }
  else if f.1 = MsgFid.linkAdd.code then { rec with add := f.2.number ≠ 0 }
  else if f.1 = MsgFid.remBridge.code then { rec with remBridge := some (bytesNonce f.2.octets) }
  else if f.1 = MsgFid.remTportid.code then { rec with remTportid := some (f.2.number % 2 ^ 32) }
  else rec

@[simp] theorem setField_tportid (rec : AdjacencyRec) (v : FldValue) :
    rec.setField (MsgFid.tportid.code, v) = { rec with tportid := some (v.number % 2 ^ 32) } := rfl

@[simp] theorem setField_adjCost (rec : AdjacencyRec) (v : FldValue) :
    rec.setField (MsgFid.adjCost.code, v) = { rec with cost := (AdjCost.parse v.octets).1 } := rfl

@[simp] theorem setField_tport (rec : AdjacencyRec) (v : FldValue) :
    rec.setField (MsgFid.tport.code, v) = { rec with tportName := v.octets } := rfl

@[simp] theorem setField_tportType (rec : AdjacencyRec) (v : FldValue) :
    rec.setField (MsgFid.tportType.code, v) = { rec with tportType := v.octets } := rfl

@[simp] theorem setField_bridge (rec : AdjacencyRec) (v : FldValue) :
    rec.setField (MsgFid.bridge.code, v) = { rec with nonce := some (bytesNonce v.octets) } := rfl

@[simp] theorem setField_remBridge (rec : AdjacencyRec) (v : FldValue) :
    rec.setField (MsgFid.remBridge.code, v) =
      { rec with remBridge := some (bytesNonce v.octets) } := rfl

@[simp] theorem setField_remTportid (rec : AdjacencyRec) (v : FldValue) :
    rec.setField (MsgFid.remTportid.code, v) =
      { rec with remTportid := some (v.number % 2 ^ 32) } := rfl

@[simp] theorem setField_user (rec : AdjacencyRec) (v : FldValue) :
    rec.setField (MsgFid.user.code, v) = rec := rfl

/-- A record with its fields set in the order they come. -/
def ofFields (fs : List (UInt8 × FldValue)) : AdjacencyRec := fs.foldl setField new

/-- `decode_rec_list<AdjacencyRec>( FID_ADJACENCY )` of the data of the field. -/
def decode (it : FieldIter) (data : List UInt8) : List AdjacencyRec :=
  (KeyedRecords.split (it.fields data)).map ofFields

end AdjacencyRec

namespace LinkStateDB

variable (l : LinkStateDB)

/-! ## §2 The records that were written -/

/-- The fields of each record of a set; the remote end is in the last one. -/
def memberBlocks (i : ℕ) (set : AdjacencySpace) (lastUid : ℕ) :
    ℕ → List (ℕ × Nonce × List UInt8) → List (List Fld)
  | _, [] => []
  | last, [p] => [memberFields i set (last ≠ i) p ++ l.remFields set lastUid]
  | last, p :: q :: ps =>
    memberFields i set (last ≠ i) p :: memberBlocks i set lastUid i (q :: ps)

/-- The fields of each record of a list of sets. -/
def setBlocks (sync : Option ℕ) : ℕ → List ℕ → List (List Fld)
  | _, [] => []
  | last, i :: is =>
    match l.adjacencySet sync i with
    | none => setBlocks sync last is
    | some set =>
      l.memberBlocks i set (lastUid (l.known set)) last (l.known set) ++
        setBlocks sync (memberLoop i set last (l.known set)).1 is

theorem flatten_memberBlocks (i : ℕ) (set : AdjacencySpace) (u : ℕ)
    (ps : List (ℕ × Nonce × List UInt8)) (last : ℕ) :
    (l.memberBlocks i set u last ps).flatten =
      (memberLoop i set last ps).2 ++ if ps = [] then [] else l.remFields set u := by
  induction ps generalizing last with
  | nil => rfl
  | cons p ps ih =>
    cases ps with
    | nil => simp [memberBlocks, memberLoop]
    | cons q ps =>
      have hq := ih i
      simp only [reduceCtorEq, if_false] at hq ⊢
      rw [memberBlocks, List.flatten_cons, hq]
      exact (List.append_assoc _ _ _).symm

theorem flatten_setBlocks (sync : Option ℕ) (is : List ℕ) (last : ℕ) :
    (l.setBlocks sync last is).flatten = l.setLoop sync last is := by
  induction is generalizing last with
  | nil => rfl
  | cons i is ih =>
    unfold setBlocks setLoop
    cases l.adjacencySet sync i with
    | none => exact ih last
    | some set =>
      simp only [List.flatten_append, flatten_memberBlocks, ih, setFields]

/-- What was written of each record, as it is read. -/
def readBlock (b : List Fld) : List (UInt8 × FldValue) := b.map fun f => (f.opt, f.value)

theorem headed_memberFields (i : ℕ) (set : AdjacencySpace) (changed : Bool)
    (p : ℕ × Nonce × List UInt8) (lastUid : ℕ) (rem : Bool) :
    KeyedRecords.Headed MsgFid.tportid.code (readBlock
      (memberFields i set changed p ++ if rem then l.remFields set lastUid else [])) := by
  have hrem : ∃ a b c d, l.remFields set lastUid = a ++ b ∧
      (a = [] ∨ a = [.n MsgFid.remBridge.code c]) ∧ (b = [] ∨ b = [.i MsgFid.remTportid.code d]) := by
    unfold remFields
    split
    · exact ⟨[], _, nonceBytes 0, _, rfl, .inl rfl, .inr rfl⟩
    · split
      · split
        · exact ⟨[], [], nonceBytes 0, 0, rfl, .inl rfl, .inl rfl⟩
        · exact ⟨[_], [_], _, _, rfl, .inr rfl, .inr rfl⟩
      · exact ⟨[], [_], nonceBytes 0, _, rfl, .inl rfl, .inr rfl⟩
  obtain ⟨a, b, c, d, heq, ha, hb⟩ := hrem
  refine ⟨⟨_, _, rfl⟩, ?_⟩
  rw [heq]
  rcases ha with rfl | rfl <;> rcases hb with rfl | rfl <;> cases changed <;> cases rem <;>
    simp [readBlock, memberFields, Fld.opt] <;> decide

/-- The record of a member as the receiver has it. -/
def memberRec (i : ℕ) (set : AdjacencySpace) (changed : Bool) (nonce : Nonce) : AdjacencyRec :=
  ⟨some nonce, if changed then set.tport else [], if changed then set.tportType else [], some i,
    set.cost, none, none, true⟩

/-- The same, with the remote end of the set. -/
def withRem (set : AdjacencySpace) (lastUid : ℕ) (rec : AdjacencyRec) : AdjacencyRec :=
  if set.remTportId = 0 then { rec with remTportid := some 0 }
  else if lastUid ≠ set.remUid then
    match l.bridgeOf set.remUid with
    | none => rec
    | some r => { rec with remBridge := some r.1, remTportid := some set.remTportId }
  else { rec with remTportid := some set.remTportId }

def memberRecs (i : ℕ) (set : AdjacencySpace) (lastUid : ℕ) :
    ℕ → List (ℕ × Nonce × List UInt8) → List AdjacencyRec
  | _, [] => []
  | last, [p] => [l.withRem set lastUid (memberRec i set (last ≠ i) p.2.1)]
  | last, p :: q :: ps =>
    memberRec i set (last ≠ i) p.2.1 :: memberRecs i set lastUid i (q :: ps)

/-- What can be sent of a set: its cost is read as it was written, its numbers have
32 bits, and its names are strings of a message. -/
structure Sendable (i : ℕ) (set : AdjacencySpace) : Prop where
  tportId : i < 2 ^ 32
  remTportId : set.remTportId < 2 ^ 32
  cost : set.cost.received = set.cost
  tport : set.tport.length < 2 ^ 16
  tportType : set.tportType.length < 2 ^ 16

theorem ofFields_memberFields {i : ℕ} {set : AdjacencySpace} (h : Sendable i set) (changed : Bool)
    (p : ℕ × Nonce × List UInt8) :
    AdjacencyRec.ofFields (readBlock (memberFields i set changed p)) =
      memberRec i set changed p.2.1 := by
  have hcost : (AdjCost.parse set.cost.str).1 = set.cost := h.cost
  cases changed <;>
    simp [readBlock, memberFields, AdjacencyRec.ofFields, Fld.opt, Fld.value, FldValue.octets,
      FldValue.number, memberRec, AdjacencyRec.new, hcost, bytesNonce_nonceBytes] <;>
    exact h.tportId

theorem foldl_remFields {i : ℕ} {set : AdjacencySpace} (h : Sendable i set) (lastUid : ℕ)
    (rec : AdjacencyRec) :
    (readBlock (l.remFields set lastUid)).foldl AdjacencyRec.setField rec =
      l.withRem set lastUid rec := by
  have hmod : set.remTportId % 4294967296 = set.remTportId := Nat.mod_eq_of_lt h.remTportId
  unfold remFields withRem
  split
  · simp [readBlock, Fld.opt, Fld.value, FldValue.number]
  · split
    · cases l.bridgeOf set.remUid with
      | none => rfl
      | some r =>
        simp [readBlock, Fld.opt, Fld.value, FldValue.number, FldValue.octets, hmod,
          bytesNonce_nonceBytes]
    · simp [readBlock, Fld.opt, Fld.value, FldValue.number, hmod]

theorem ofFields_memberBlocks {i : ℕ} {set : AdjacencySpace} (h : Sendable i set) (u : ℕ)
    (ps : List (ℕ × Nonce × List UInt8)) (last : ℕ) :
    (l.memberBlocks i set u last ps).map (AdjacencyRec.ofFields ∘ readBlock) =
      l.memberRecs i set u last ps := by
  induction ps generalizing last with
  | nil => rfl
  | cons p ps ih =>
    cases ps with
    | nil =>
      have hrec := ofFields_memberFields h (last ≠ i) p
      simp only [memberBlocks, memberRecs, List.map_cons, List.map_nil, Function.comp_apply]
      rw [readBlock, List.map_append, AdjacencyRec.ofFields, List.foldl_append]
      rw [AdjacencyRec.ofFields, readBlock] at hrec
      rw [hrec]
      exact congrArg (fun r => [r]) (l.foldl_remFields h u _)
    | cons q ps =>
      rw [memberBlocks, memberRecs, List.map_cons, ih, Function.comp_apply,
        ofFields_memberFields h]

/-! ## §3 Applying the records -/

/-- What a receiver that finds users by `find` makes of a remote end: none when the
remote transport is zero, and no change when its user has no bridge. -/
def remote (find : UidTable) (set : AdjacencySpace) : Option (ℕ × ℕ) :=
  if set.remTportId = 0 then some (0, 0)
  else (l.bridgeOf set.remUid).map fun r => ((find r.1).getD 0, set.remTportId)

/-- The last of the members is the owner of the set. -/
def ownLast (find : UidTable) (u : ℕ) (ps : List (ℕ × Nonce × List UInt8)) : Bool :=
  ps.getLast?.any fun p => find p.2.1 = some u

/-- The set that the records of the members `ps` leave where `old` was. A record that
makes the user `u` a member of its own set is skipped, with the remote end in it. -/
def received (find : UidTable) (u i : ℕ) (set : AdjacencySpace) (changed : Bool)
    (old : AdjacencySpace) (ps : List (ℕ × Nonce × List UInt8)) : AdjacencySpace :=
  let old' := (old.remUid, old.remTportId)
  let rem := if ownLast find u ps then old' else (l.remote find set).getD old'
  { members := old.members ∪ ((ps.map fun p => (find p.2.1).getD 0).filter (· ≠ u)).toFinset
    tport := if changed ∧ set.tport ≠ [] then set.tport else old.tport
    tportType := if changed ∧ set.tportType ≠ [] then set.tportType else old.tportType
    uid := u
    tportId := i
    remUid := rem.1
    remTportId := rem.2
    cost := set.cost }

/-- The receiver knows the users of a set. -/
structure KnownBy (find : UidTable) (set : AdjacencySpace) : Prop where
  members : ∀ p ∈ l.known set, ∃ v, find p.2.1 = some v
  remote : set.remTportId ≠ 0 → ∀ r, l.bridgeOf set.remUid = some r → ∃ v, find r.1 = some v

section Apply

variable {find : UidTable} {u i : ℕ} {set : AdjacencySpace}

theorem memberOp_of_find {rec : AdjacencyRec} {nonce : Nonce} {b : ℕ} (hn : rec.nonce = some nonce)
    (hadd : rec.add = true) (hb : find nonce = some b) :
    rec.memberOp find u = if b = u then .skip else .add b (rec.remEnd find b) := by
  simp [AdjacencyRec.memberOp, hn, hb, hadd]

theorem resolved_of_find (rec : AdjacencyRec) {nonce : Nonce} {b : ℕ} (hn : rec.nonce = some nonce)
    (hb : find nonce = some b) (hrem : ∀ rb, rec.remBridge = some rb → (find rb).isSome) :
    rec.resolved find u = true := by
  unfold AdjacencyRec.resolved
  simp only [hn, hb, Bool.or_eq_true]
  refine .inr ?_
  split
  · rfl
  · rfl
  · cases h : rec.remBridge with
    | none => rfl
    | some rb => simp [hrem rb h]

/-- The remote end that the last record sets. -/
theorem remEnd_withRem {p : ℕ × Nonce × List UInt8} {b : ℕ} (hk : l.KnownBy find set)
    (changed : Bool) (hb : find p.2.1 = some b) (hbridge : l.bridgeOf p.1 = some p.2) :
    (l.withRem set p.1 (memberRec i set changed p.2.1)).remEnd find b = l.remote find set := by
  unfold withRem remote
  by_cases h0 : set.remTportId = 0
  · simp [h0, AdjacencyRec.remEnd]
  · obtain ⟨t, ht⟩ := Nat.exists_eq_succ_of_ne_zero h0
    simp only [h0, if_false]
    by_cases hlast : p.1 = set.remUid
    · rw [hlast] at hbridge
      simp [hlast, hbridge, hb, ht, AdjacencyRec.remEnd, memberRec]
    · rw [if_pos hlast]
      cases hr : l.bridgeOf set.remUid with
      | none => simp [AdjacencyRec.remEnd, memberRec]
      | some r =>
        obtain ⟨v, hv⟩ := hk.remote h0 r hr
        simp [AdjacencyRec.remEnd, ht, hv]

theorem mem_known {p : ℕ × Nonce × List UInt8} :
    p ∈ l.known set ↔ p.1 ∈ set.members ∧ l.bridgeOf p.1 = some p.2 := by
  obtain ⟨v, b⟩ := p
  simp [known, AdjacencySpace.mem_uids]

/-- The remote end is all that the last record has besides. -/
theorem exists_withRem (set : AdjacencySpace) (v : ℕ) (rec : AdjacencyRec) :
    ∃ rb rt, l.withRem set v rec = { rec with remBridge := rb, remTportid := rt } := by
  unfold withRem
  split
  · exact ⟨_, _, rfl⟩
  · split
    · cases l.bridgeOf set.remUid with
      | none => exact ⟨_, _, rfl⟩
      | some r => exact ⟨_, _, rfl⟩
    · exact ⟨_, _, rfl⟩

theorem touch_memberRec (changed : Bool) (nonce : Nonce) (slot : Option AdjacencySpace) :
    (memberRec i set changed nonce).touch u i slot =
      { slot.getD .new with
        uid := u
        tportId := i
        cost := set.cost
        tport := if changed ∧ set.tport ≠ [] then set.tport else (slot.getD .new).tport
        tportType :=
          if changed ∧ set.tportType ≠ [] then set.tportType
          else (slot.getD .new).tportType } := by
  cases changed <;> simp [AdjacencyRec.touch, memberRec]

/-- The record of a member that is not the last one. -/
theorem apply_memberRec {p : ℕ × Nonce × List UInt8} {b : ℕ} (tab : AdjacencyTab) (changed : Bool)
    (hb : find p.2.1 = some b) :
    tab.apply find u (memberRec i set changed p.2.1) =
      tab.put i { (memberRec i set changed p.2.1).touch u i (tab.ptr i) with
        members := if b = u then ((tab.ptr i).getD .new).members
          else insert b ((tab.ptr i).getD .new).members } := by
  rw [AdjacencyTab.apply_of_tportid tab rfl, memberOp_of_find rfl rfl hb]
  split
  · rfl
  · rfl

/-- The record of the last member. -/
theorem apply_withRem {p : ℕ × Nonce × List UInt8} (hk : l.KnownBy find set)
    (hp : p ∈ l.known set) (tab : AdjacencyTab) (changed : Bool) :
    tab.apply find u (l.withRem set p.1 (memberRec i set changed p.2.1)) =
      tab.put i (l.received find u i set changed ((tab.ptr i).getD .new) [p]) := by
  obtain ⟨b, hb⟩ := hk.members p hp
  obtain ⟨rb, rt, heq⟩ := l.exists_withRem set p.1 (memberRec i set changed p.2.1)
  have hrem := l.remEnd_withRem (i := i) hk changed hb (l.mem_known.mp hp).2
  rw [heq] at hrem ⊢
  have htouch : AdjacencyRec.touch { memberRec i set changed p.2.1 with
      remBridge := rb, remTportid := rt } u i (tab.ptr i) = _ :=
    touch_memberRec changed p.2.1 (tab.ptr i)
  rw [AdjacencyTab.apply_of_tportid tab rfl, memberOp_of_find rfl rfl hb, hrem, htouch,
    received]
  by_cases hbu : b = u
  · simp [hbu, MemberOp.run, ownLast, hb]
  · cases l.remote find set with
    | none => simp [hbu, MemberOp.run, ownLast, hb]
    | some r => simp [hbu, MemberOp.run, ownLast, hb]

/-- The records of a set, one after the other. -/
theorem foldl_memberRecs (hk : l.KnownBy find set) (ps : List (ℕ × Nonce × List UInt8))
    (hps : ∀ p ∈ ps, p ∈ l.known set) (hne : ps ≠ []) (last : ℕ) (tab : AdjacencyTab) :
    (l.memberRecs i set (lastUid ps) last ps).foldl (AdjacencyTab.apply find u) tab =
      tab.put i (l.received find u i set (last ≠ i) ((tab.ptr i).getD .new) ps) := by
  induction ps generalizing last tab with
  | nil => exact absurd rfl hne
  | cons p ps ih =>
    have hp := hps p List.mem_cons_self
    cases ps with
    | nil => exact l.apply_withRem hk hp tab _
    | cons q ps =>
      obtain ⟨b, hb⟩ := hk.members p hp
      have hlast : lastUid (p :: q :: ps) = lastUid (q :: ps) := by
        simp [lastUid, List.getLast?_cons_cons]
      have hown : ownLast find u (p :: q :: ps) = ownLast find u (q :: ps) := by
        simp [ownLast, List.getLast?_cons_cons]
      rw [memberRecs, List.foldl_cons, hlast,
        ih (fun q hq => hps q (List.mem_cons_of_mem _ hq)) (by simp), apply_memberRec tab _ hb,
        AdjacencyTab.put_put, AdjacencyTab.ptr_put_self, touch_memberRec]
      congr 1
      have hmap : (p :: q :: ps).map (fun p => (find p.2.1).getD 0) =
          b :: (q :: ps).map (fun p => (find p.2.1).getD 0) := by simp [hb]
      rw [received, received, hown, hmap]
      by_cases hbu : b = u
      · simp [hbu]
      · simp [hbu, Finset.insert_union, Finset.union_insert]

theorem remBridge_withRem (hk : l.KnownBy find set) (v : ℕ) (rec : AdjacencyRec)
    (hrec : rec.remBridge = none) (rb : Nonce) (h : (l.withRem set v rec).remBridge = some rb) :
    (find rb).isSome := by
  unfold withRem at h
  by_cases h0 : set.remTportId = 0
  · simp [h0, hrec] at h
  · rw [if_neg h0] at h
    split at h
    · cases hr : l.bridgeOf set.remUid with
      | none => simp [hr, hrec] at h
      | some r =>
        obtain ⟨w, hw⟩ := hk.remote h0 r hr
        simp only [hr, Option.some.injEq] at h
        simp [← h, hw]
    · simp [hrec] at h

/-- None of the records is set aside. -/
theorem parks_memberRecs (hk : l.KnownBy find set) (v : ℕ)
    (ps : List (ℕ × Nonce × List UInt8)) (hps : ∀ p ∈ ps, p ∈ l.known set) (last : ℕ) :
    ∀ rec ∈ l.memberRecs i set v last ps, rec.parks find u = false := by
  induction ps generalizing last with
  | nil => simp [memberRecs]
  | cons p ps ih =>
    obtain ⟨b, hb⟩ := hk.members p (hps p List.mem_cons_self)
    cases ps with
    | nil =>
      intro rec hrec
      obtain rfl : rec = _ := List.mem_singleton.mp hrec
      obtain ⟨rb, rt, heq⟩ := l.exists_withRem set v (memberRec i set (last ≠ i) p.2.1)
      have hrem := l.remBridge_withRem hk v (memberRec i set (last ≠ i) p.2.1) rfl
      rw [heq] at hrem ⊢
      rw [AdjacencyRec.parks, resolved_of_find _ rfl hb hrem, Bool.not_true, Bool.and_false]
    | cons q ps =>
      intro rec hrec
      rcases List.mem_cons.mp hrec with rfl | hrec
      · rw [AdjacencyRec.parks, resolved_of_find _ rfl hb (by simp [memberRec]), Bool.not_true,
          Bool.and_false]
      · exact ih (fun q hq => hps q (List.mem_cons_of_mem _ hq)) i rec hrec

/-! ## §4 All sets -/

/-- The set of a transport that is in the message: it has a member with a bridge. -/
def sent (sync : Option ℕ) (i : ℕ) : Option AdjacencySpace :=
  (l.adjacencySet sync i).filter fun set => l.known set ≠ []

/-- The records of a list of sets, as they are read. -/
def setRecs (sync : Option ℕ) (last : ℕ) (is : List ℕ) : List AdjacencyRec :=
  (l.setBlocks sync last is).map (AdjacencyRec.ofFields ∘ readBlock)

theorem memberLoop_fst (ps : List (ℕ × Nonce × List UInt8)) (last : ℕ) :
    (memberLoop i set last ps).1 = if ps = [] then last else i := by
  induction ps generalizing last with
  | nil => rfl
  | cons p ps ih => simp [memberLoop, ih]

variable {sync : Option ℕ} {last : ℕ} {is : List ℕ}

theorem setRecs_of_sent (hs : l.sent sync i = some set) (h : Sendable i set) :
    l.setRecs sync last (i :: is) =
      l.memberRecs i set (lastUid (l.known set)) last (l.known set) ++ l.setRecs sync i is := by
  obtain ⟨hset, hne⟩ := Option.filter_eq_some_iff.mp hs
  rw [decide_eq_true_eq] at hne
  rw [setRecs, setBlocks, hset]
  simp only [List.map_append, l.ofFields_memberBlocks h, memberLoop_fst, if_neg hne]
  rfl

theorem setRecs_of_not_sent (hs : l.sent sync i = none) :
    l.setRecs sync last (i :: is) = l.setRecs sync last is := by
  rw [setRecs, setBlocks]
  cases hset : l.adjacencySet sync i with
  | none => rfl
  | some set =>
    have hnil : l.known set = [] := by
      by_contra hne
      simp [sent, hset, hne] at hs
    simp [hnil, memberBlocks, memberLoop, setRecs]

/-- Every set that is sent can be, to a receiver that knows its users. -/
def AllSendable (find : UidTable) (sync : Option ℕ) (is : List ℕ) : Prop :=
  ∀ i ∈ is, ∀ set, l.sent sync i = some set → Sendable i set ∧ l.KnownBy find set

theorem parks_setRecs (h : l.AllSendable find sync is) (last : ℕ) :
    ∀ rec ∈ l.setRecs sync last is, rec.parks find u = false := by
  induction is generalizing last with
  | nil => simp [setRecs, setBlocks]
  | cons i is ih =>
    have htail : l.AllSendable find sync is := fun j hj => h j (List.mem_cons_of_mem i hj)
    cases hs : l.sent sync i with
    | none => rw [l.setRecs_of_not_sent hs]; exact ih htail last
    | some set =>
      obtain ⟨hsend, hk⟩ := h i List.mem_cons_self set hs
      rw [l.setRecs_of_sent hs hsend]
      intro rec hrec
      rcases List.mem_append.mp hrec with hrec | hrec
      · exact l.parks_memberRecs hk _ _ (fun p hp => hp) last rec hrec
      · exact ih htail i rec hrec

/-- The table after the records: the sets that were sent are replaced and the others
stay. -/
theorem ptr_foldl_setRecs (h : l.AllSendable find sync is) (hnodup : is.Nodup)
    (hlast : last ∉ is) (tab : AdjacencyTab) (j : ℕ) :
    ((l.setRecs sync last is).foldl (AdjacencyTab.apply find u) tab).ptr j =
      if j ∈ is then
        match l.sent sync j with
        | none => tab.ptr j
        | some set => some (l.received find u j set true ((tab.ptr j).getD .new) (l.known set))
      else tab.ptr j := by
  induction is generalizing last tab with
  | nil => rfl
  | cons i is ih =>
    have htail : l.AllSendable find sync is := fun j hj => h j (List.mem_cons_of_mem i hj)
    obtain ⟨hi, hnodup⟩ := List.nodup_cons.mp hnodup
    obtain ⟨hne, hlast⟩ : last ≠ i ∧ last ∉ is := by simpa using hlast
    cases hs : l.sent sync i with
    | none =>
      rw [l.setRecs_of_not_sent hs, ih htail hnodup hlast]
      by_cases hj : j = i
      · simp [hj, hi, hs]
      · simp [hj]
    | some set =>
      obtain ⟨hsend, hk⟩ := h i List.mem_cons_self set hs
      have hknown : l.known set ≠ [] := by
        simpa using (Option.filter_eq_some_iff.mp hs).2
      rw [l.setRecs_of_sent hs hsend, List.foldl_append,
        l.foldl_memberRecs hk _ (fun p hp => hp) hknown, ih htail hnodup hi]
      by_cases hj : j = i
      · simp [hj, hi, hs, hne]
      · simp [hj, AdjacencyTab.ptr_put_ne]

/-! ## §5 The message -/

/-- The names of the users are strings of a message. -/
def ShortUsers : Prop := ∀ uid b, l.bridgeOf uid = some b → b.2.length < 2 ^ 16

theorem fits_memberFields (h : Sendable i set) (changed : Bool) {p : ℕ × Nonce × List UInt8}
    (hp : p.2.2.length < 2 ^ 16) : ∀ f ∈ memberFields i set changed p, f.Fits := by
  have hcost : set.cost.str.length < 2 ^ 16 := (AdjCost.length_str_le _).trans_lt (by norm_num)
  have htport := h.tport
  have htype := h.tportType
  cases changed <;> simp [memberFields, Fld.Fits] <;> omega

theorem fits_memberLoop (h : Sendable i set) (ps : List (ℕ × Nonce × List UInt8))
    (hps : ∀ p ∈ ps, p.2.2.length < 2 ^ 16) (last : ℕ) :
    ∀ f ∈ (memberLoop i set last ps).2, f.Fits := by
  induction ps generalizing last with
  | nil => simp [memberLoop]
  | cons p ps ih =>
    intro f hf
    rcases List.mem_append.mp hf with hf | hf
    · exact fits_memberFields h _ (hps p List.mem_cons_self) f hf
    · exact ih (fun q hq => hps q (List.mem_cons_of_mem _ hq)) i f hf

theorem fits_remFields (set : AdjacencySpace) (v : ℕ) : ∀ f ∈ l.remFields set v, f.Fits := by
  unfold remFields
  split
  · simp [Fld.Fits]
  · split
    · split <;> simp [Fld.Fits]
    · simp [Fld.Fits]

theorem fits_setLoop (hu : l.ShortUsers) (h : l.AllSendable find sync is) (last : ℕ) :
    ∀ f ∈ l.setLoop sync last is, f.Fits := by
  induction is generalizing last with
  | nil => simp [setLoop]
  | cons i is ih =>
    have htail : l.AllSendable find sync is := fun j hj => h j (List.mem_cons_of_mem i hj)
    unfold setLoop
    cases hset : l.adjacencySet sync i with
    | none => exact ih htail last
    | some set =>
      intro f hf
      rcases List.mem_append.mp hf with hf | hf
      · by_cases hne : l.known set = []
        · simp [setFields, hne, memberLoop] at hf
        · have hs : l.sent sync i = some set := by simp [sent, hset, hne]
          have hshort : ∀ p ∈ l.known set, p.2.2.length < 2 ^ 16 := fun p hp =>
            hu p.1 p.2 (l.mem_known.mp hp).2
          rw [setFields, if_neg hne] at hf
          rcases List.mem_append.mp hf with hf | hf
          · exact fits_memberLoop (h i List.mem_cons_self set hs).1 _ hshort last f hf
          · exact l.fits_remFields set _ f hf
      · exact ih htail _ f hf

theorem headed_memberBlocks (i : ℕ) (set : AdjacencySpace) (v : ℕ)
    (ps : List (ℕ × Nonce × List UInt8)) (last : ℕ) :
    ∀ b ∈ l.memberBlocks i set v last ps,
      KeyedRecords.Headed MsgFid.tportid.code (readBlock b) := by
  induction ps generalizing last with
  | nil => simp [memberBlocks]
  | cons p ps ih =>
    cases ps with
    | nil =>
      intro b hb
      obtain rfl : b = _ := List.mem_singleton.mp hb
      exact l.headed_memberFields i set _ p v true
    | cons q ps =>
      intro b hb
      rcases List.mem_cons.mp hb with rfl | hb
      · simpa using l.headed_memberFields i set (last ≠ i) p v false
      · exact ih i b hb

theorem headed_setBlocks (sync : Option ℕ) (is : List ℕ) (last : ℕ) :
    ∀ b ∈ l.setBlocks sync last is, KeyedRecords.Headed MsgFid.tportid.code (readBlock b) := by
  induction is generalizing last with
  | nil => simp [setBlocks]
  | cons i is ih =>
    unfold setBlocks
    cases l.adjacencySet sync i with
    | none => exact ih last
    | some set =>
      intro b hb
      rcases List.mem_append.mp hb with hb | hb
      · exact l.headed_memberBlocks i set _ _ last b hb
      · exact ih _ b hb

/-- The data of `FID_ADJACENCY`, after the head of the message inside. -/
def adjacencyData (sync : Option ℕ) : List UInt8 := (l.adjacencySubmsg sync).flatMap Fld.bytes

/-- The records that are read are those that were written. -/
theorem decode_adjacencyData (it : FieldIter) (hu : l.ShortUsers)
    (h : l.AllSendable find sync (List.range (l.adjacencyCount sync))) :
    AdjacencyRec.decode it (l.adjacencyData sync) =
      l.setRecs sync (l.adjacencyCount sync) (List.range (l.adjacencyCount sync)) := by
  have hblocks : (l.adjacencySubmsg sync).map (fun f => (f.opt, f.value)) =
      ((l.setBlocks sync (l.adjacencyCount sync)
        (List.range (l.adjacencyCount sync))).map readBlock).flatten := by
    rw [adjacencySubmsg, ← flatten_setBlocks, List.map_flatten]
    rfl
  have hfits : ∀ f ∈ l.adjacencySubmsg sync, f.Fits := l.fits_setLoop hu h _
  rw [AdjacencyRec.decode, adjacencyData, it.reads _ hfits, hblocks,
    KeyedRecords.split_flatten (k := MsgFid.tportid.code), List.map_map]
  · rfl
  · simpa using l.headed_setBlocks sync _ _

end Apply

end LinkStateDB

/-! ## §6 The receiver -/

/-- Records that are all applied leave nothing to come. -/
theorem UserBridge.applyAdjacencyChange_of_not_parks (find : UidTable) (uid : ℕ)
    (recs : List AdjacencyRec) (h : ∀ rec ∈ recs, rec.parks find uid = false) (n : UserBridge) :
    ∃ csum, n.applyAdjacencyChange find uid recs =
      ({ n with
          adjacency := recs.foldl (AdjacencyTab.apply find uid) n.adjacency
          uidCsum := csum }, []) := by
  induction recs generalizing n with
  | nil => exact ⟨n.uidCsum, rfl⟩
  | cons rec recs ih =>
    obtain ⟨c, hfst⟩ := addAdjacencyChange_fst find uid n rec
    obtain ⟨csum, hrest⟩ := ih (fun r hr => h r (List.mem_cons_of_mem _ hr))
      { n with adjacency := n.adjacency.apply find uid rec, uidCsum := c }
    refine ⟨csum, ?_⟩
    unfold applyAdjacencyChange
    simp only [addAdjacencyChange_snd, h rec List.mem_cons_self, Bool.not_false, if_true, hfst,
      hrest, List.foldl_cons]

namespace UserDB

theorem find_dropUnknown (db : UserDB) (uid : ℕ) : (db.dropUnknown uid).find = db.find := by
  unfold dropUnknown
  cases db.bridgeTab uid with
  | none => rfl
  | some n =>
    simp only
    split
    · rfl
    · rfl

theorem bridgeTab_dropUnknown {db : UserDB} {uid : ℕ} {n : UserBridge}
    (hn : db.bridgeTab uid = some n) :
    ∃ m, (db.dropUnknown uid).bridgeTab uid = some m ∧ m.adjacency = n.adjacency ∧
      m.unknownAdjRefs = 0 := by
  unfold dropUnknown
  simp only [hn]
  by_cases h0 : n.unknownAdjRefs = 0
  · rw [if_neg (by simp [h0])]
    exact ⟨n, hn, rfl, h0⟩
  · rw [if_pos h0]
    exact ⟨n.clearUnknown, by simp [clearUnknownAdjacency, modifyBridge, hn], rfl, rfl⟩

/-- A link state that is taken, when the users in it are known: the table is that of
the records, over sets that were emptied. -/
theorem adjacency_recvAdjacencyResult {db : UserDB} {uid linkState : ℕ} {n : UserBridge}
    {reas : AdjacencyRequest} {recs : List AdjacencyRec} (hn : db.bridgeTab uid = some n)
    (htake : TakesResult n linkState reas) (h : ∀ rec ∈ recs, rec.parks db.find uid = false)
    (quiet : Bool) :
    ∃ n', (db.recvAdjacencyResult uid linkState recs reas quiet).bridgeTab uid = some n' ∧
      n'.adjacency =
        recs.foldl (AdjacencyTab.apply db.find uid) (zeroAdjacency n).adjacency := by
  obtain ⟨m, hm, hadj, hrefs⟩ := bridgeTab_dropUnknown hn
  obtain ⟨csum, happly⟩ :=
    UserBridge.applyAdjacencyChange_of_not_parks db.find uid recs h (zeroAdjacency m)
  have hzero : (zeroAdjacency m).unknownAdjRefs = 0 := hrefs
  have hsame : (zeroAdjacency m).adjacency = (zeroAdjacency n).adjacency := by
    simp only [zeroAdjacency, hadj]
  rw [← hsame]
  unfold recvAdjacencyResult replaceAdjacency
  simp only [hn, if_pos htake, hm, find_dropUnknown, happly, hzero, if_true]
  refine ⟨UserBridge.updateLinkStateSeqno { zeroAdjacency m with
    adjacency := recs.foldl (AdjacencyTab.apply db.find uid) (zeroAdjacency m).adjacency
    uidCsum := csum
    nullSyncRes := 0 } linkState, ?_, rfl⟩
  simp [modifyBridge, hm, hzero]

end UserDB

namespace LinkStateDB

variable (l : LinkStateDB)

/-- The table of the receiver: the sets that were sent, and the others without
members. -/
theorem ptr_recvAdjacencyResult {sync : Option ℕ} (it : FieldIter) {db : UserDB}
    {uid linkState : ℕ} {n : UserBridge} {reas : AdjacencyRequest} (quiet : Bool)
    (hn : db.bridgeTab uid = some n) (htake : UserDB.TakesResult n linkState reas)
    (hu : l.ShortUsers) (h : l.AllSendable db.find sync (List.range (l.adjacencyCount sync))) :
    ∃ n', (db.recvAdjacencyResult uid linkState (AdjacencyRec.decode it (l.adjacencyData sync))
        reas quiet).bridgeTab uid = some n' ∧
      ∀ i, n'.adjacency.ptr i =
        if i < l.adjacencyCount sync then
          match l.sent sync i with
          | none => (UserDB.zeroAdjacency n).adjacency.ptr i
          | some set => some (l.received db.find uid i set true
              (((UserDB.zeroAdjacency n).adjacency.ptr i).getD .new) (l.known set))
        else (UserDB.zeroAdjacency n).adjacency.ptr i := by
  have hdecode := l.decode_adjacencyData it hu h
  have hparks := l.parks_setRecs (u := uid) h (l.adjacencyCount sync)
  rw [← hdecode] at hparks
  obtain ⟨n', hn', hadj⟩ := UserDB.adjacency_recvAdjacencyResult hn htake hparks quiet
  refine ⟨n', hn', fun i => ?_⟩
  rw [hadj, hdecode, l.ptr_foldl_setRecs h List.nodup_range (by simp)]
  simp

/-- The set `set'` of the receiver says of transport `i` of user `u` what the sender's
`set` does. -/
structure Reproduces (find : UidTable) (u i : ℕ) (set set' : AdjacencySpace) : Prop where
  tportId : set'.tportId = i
  members : ∀ v, v ∈ set'.members ↔
    v ≠ u ∧ ∃ m ∈ set.members, ∃ b, l.bridgeOf m = some b ∧ find b.1 = some v
  cost : set'.cost = set.cost
  tport : set.tport ≠ [] → set'.tport = set.tport
  tportType : set.tportType ≠ [] → set'.tportType = set.tportType
  /-- the remote end, when the last member is not the owner of the set -/
  remote : ¬ ownLast find u (l.known set) → set.remTportId ≠ 0 →
    ∀ b, l.bridgeOf set.remUid = some b →
      find b.1 = some set'.remUid ∧ set'.remTportId = set.remTportId
  noRemote : set.remTportId = 0 ∨ l.bridgeOf set.remUid = none →
    set'.remUid = 0 ∧ set'.remTportId = 0

theorem reproduces_received {find : UidTable} {u i : ℕ} {set old : AdjacencySpace}
    (hk : l.KnownBy find set) (hm : old.members = ∅) (hrem : old.remUid = 0 ∧ old.remTportId = 0) :
    l.Reproduces find u i set (l.received find u i set true old (l.known set)) where
  tportId := rfl
  members v := by
    have hfound : (∃ p ∈ l.known set, (find p.2.1).getD 0 = v) ↔
        ∃ m ∈ set.members, ∃ b, l.bridgeOf m = some b ∧ find b.1 = some v := by
      constructor
      · rintro ⟨p, hp, hv⟩
        obtain ⟨w, hw⟩ := hk.members p hp
        obtain ⟨hmem, hb⟩ := l.mem_known.mp hp
        exact ⟨p.1, hmem, p.2, hb, by rw [hw, ← hv, hw]; rfl⟩
      · rintro ⟨m, hmem, b, hb, hv⟩
        exact ⟨(m, b), l.mem_known.mpr ⟨hmem, hb⟩, by simp [hv]⟩
    rw [← hfound, received, hm]
    simp only [Finset.empty_union, List.mem_toFinset, List.mem_filter, List.mem_map,
      decide_eq_true_eq]
    exact and_comm
  cost := rfl
  tport h := by simp [received, h]
  tportType h := by simp [received, h]
  remote hown h0 b hb := by
    obtain ⟨v, hv⟩ := hk.remote h0 b hb
    simp [received, remote, hown, h0, hb, hv]
  noRemote h := by
    have h00 : (l.remote find set).getD (0, 0) = (0, 0) := by
      rcases h with h | h
      · simp [remote, h]
      · unfold remote
        split
        · rfl
        · simp [h]
    simp only [received, hrem, h00, ite_self, and_self]

/-- A link state that is sent to a node that knows the users in it: the node has the
sets of the sender and no member besides, and the size that the sender reserves is
enough. -/
theorem recvAdjacencyResult_reproduces (sync : Option ℕ) (it : FieldIter) (db : UserDB)
    (uid linkState : ℕ) (n : UserBridge) (reas : AdjacencyRequest) (quiet : Bool)
    (hn : db.bridgeTab uid = some n) (htake : UserDB.TakesResult n linkState reas)
    (hu : l.ShortUsers) (h : l.AllSendable db.find sync (List.range (l.adjacencyCount sync))) :
    6 + (l.adjacencyData sync).length ≤ l.adjacencySize sync ∧
    ∃ n', (db.recvAdjacencyResult uid linkState (AdjacencyRec.decode it (l.adjacencyData sync))
        reas quiet).bridgeTab uid = some n' ∧
      (∀ i < l.adjacencyCount sync, ∀ set, l.sent sync i = some set →
        ∃ set', n'.adjacency.ptr i = some set' ∧ l.Reproduces db.find uid i set set') ∧
      ∀ i, (i < l.adjacencyCount sync → l.sent sync i = none) →
        ∀ set', n'.adjacency.ptr i = some set' → set'.members = ∅ := by
  refine ⟨l.length_adjacencySubmsg_le sync, ?_⟩
  obtain ⟨n', hn', hptr⟩ := l.ptr_recvAdjacencyResult it quiet hn htake hu h
  have hzero : ∀ i set', (UserDB.zeroAdjacency n).adjacency.ptr i = some set' →
      set'.members = ∅ ∧ set'.remUid = 0 ∧ set'.remTportId = 0 := by
    intro i set' hset
    obtain ⟨set, -, rfl⟩ := Option.map_eq_some_iff.mp hset
    exact ⟨rfl, rfl, rfl⟩
  refine ⟨n', hn', ?_, ?_⟩
  · intro i hi set hs
    have hk := (h i (List.mem_range.mpr hi) set hs).2
    refine ⟨_, by rw [hptr, if_pos hi, hs], ?_⟩
    cases hold : (UserDB.zeroAdjacency n).adjacency.ptr i with
    | none => exact l.reproduces_received hk rfl ⟨rfl, rfl⟩
    | some old =>
      obtain ⟨hm, hrem⟩ := hzero i old hold
      exact l.reproduces_received hk hm hrem
  · intro i hi set' hset
    have hkept : (UserDB.zeroAdjacency n).adjacency.ptr i = some set' := by
      rw [← hset, hptr]
      by_cases hlt : i < l.adjacencyCount sync
      · rw [if_pos hlt, hi hlt]
      · rw [if_neg hlt]
    exact (hzero i set' hkept).1

/-! ### A link whose remote transport is not known -/

/-- A transport with one user, which is the remote end, by a transport that has no id
yet. -/
def linkA : AdjacencySpace :=
  ⟨{2}, text "mesh1", text "mesh", 0, 0, 2, 0, AdjCost.const COST_DEFAULT⟩

/-- The node of the bridge id 1, which is connected to that of the bridge id 5. -/
def nodeA : LinkStateDB where
  db := { UserDB.init 1 with bridgeTab := fun uid => if uid = 2 then some (.new 5) else none }
  nonce := 1
  user := [0x61]
  peerUser _ := [0x62]
  tportCount := 1
  uidConnected _ := linkA

/-- A node that knows both of them, by other uids. -/
def nodeB : UserDB :=
  { UserDB.init 7 with
    nodeHt := fun nonce => if nonce = 1 then some 1 else if nonce = 5 then some 3 else none
    bridgeTab := fun uid => if uid = 1 then some (.new 1) else none
    nextUid := 4 }

theorem shortUsers_nodeA : nodeA.ShortUsers := by
  intro uid b hb
  have hlen : b.2.length = 1 := by
    unfold bridgeOf at hb
    split at hb
    · cases hb; rfl
    · obtain ⟨n, -, rfl⟩ := Option.map_eq_some_iff.mp hb
      rfl
  omega

theorem known_linkA : nodeA.known linkA = [(2, 5, [0x62])] := by decide

theorem sent_nodeA : nodeA.sent none 0 = some linkA := by decide

theorem allSendable_nodeA :
    nodeA.AllSendable nodeB.find none (List.range (nodeA.adjacencyCount none)) := by
  intro i hi set hset
  obtain rfl : i = 0 := by simpa [adjacencyCount, nodeA] using hi
  obtain rfl : linkA = set := Option.some.inj (sent_nodeA.symm.trans hset)
  refine ⟨⟨by decide, by decide, by decide, by decide, by decide⟩, ?_, fun h0 => absurd rfl h0⟩
  intro p hp
  rw [known_linkA, List.mem_singleton] at hp
  exact ⟨3, by rw [hp]; decide⟩

theorem recvAdjacencyResult_reproduces_nodeA :
    ∃ n', (nodeB.recvAdjacencyResult 1 1
        (AdjacencyRec.decode .inOrder (nodeA.adjacencyData none)) .other true).bridgeTab 1 =
          some n' ∧
      ∃ set', n'.adjacency.ptr 0 = some set' ∧ nodeA.Reproduces nodeB.find 1 0 linkA set' := by
  obtain ⟨-, n', hn', hsets, -⟩ := nodeA.recvAdjacencyResult_reproduces none .inOrder nodeB 1 1
    (.new 1) .other true rfl (.inl (by decide)) shortUsers_nodeA allSendable_nodeA
  exact ⟨n', hn', hsets 0 (by decide) linkA sent_nodeA⟩

/-- The remote uid of such a link is not received, although the cost survives and the
node knows all members and the remote user. -/
theorem remUid_linkA_not_received :
    linkA.cost.received = linkA.cost ∧
    (∀ p ∈ nodeA.known linkA, (nodeB.find p.2.1).isSome) ∧
    nodeA.bridgeOf linkA.remUid = some (5, [0x62]) ∧ nodeB.find 5 = some 3 ∧
    ∃ n', (nodeB.recvAdjacencyResult 1 1
        (AdjacencyRec.decode .inOrder (nodeA.adjacencyData none)) .other true).bridgeTab 1 =
          some n' ∧
      ∃ set', n'.adjacency.ptr 0 = some set' ∧ set'.remUid ≠ 3 := by
  refine ⟨by decide, by decide, by decide, by decide, ?_⟩
  have hn : nodeB.bridgeTab 1 = some (.new 1) := rfl
  have htake : UserDB.TakesResult (.new 1) 1 .other := .inl (by decide)
  obtain ⟨n', hn', hptr⟩ :=
    nodeA.ptr_recvAdjacencyResult .inOrder true hn htake shortUsers_nodeA allSendable_nodeA
  refine ⟨n', hn', _, (hptr 0).trans (by rw [if_pos (by decide), sent_nodeA]), ?_⟩
  rw [known_linkA]
  decide

end LinkStateDB

end Raims
