import Raims.Msg.MsgEst
import Mathlib.Algebra.Order.BigOperators.Group.List
import Mathlib.Data.List.Count

/-!
# Drafts of messages

Every builder has the same two lists: what it reserves and what it writes. The method
of a field is the same in all of them, so a draft names the fields only, and the values
are those that the builder passes to the methods. A draft that reserves each field that
it writes is safe, whatever the values and the conditions.
-/

namespace Raims

open Bytes

/-! ## §1 The methods of the fields -/

/-- What a builder passes to the methods, by the field they are for. -/
structure Vals where
  num : MsgFid → UInt64
  int : MsgFid → UInt32
  short : MsgFid → UInt16
  flag : MsgFid → UInt8
  /-- strings and opaque data -/
  str : MsgFid → List UInt8
  nonce : MsgFid → Octets 16
  key : MsgFid → Octets 64
  pub : Octets 32
  session : Octets 16 × Octets 16

/-- `MsgBufT`: the method that writes a field. Those of the databases are written by
functions of their own. -/
def Vals.item (v : Vals) (f : MsgFid) : Item :=
  match f with
  | .session => .fld (.x f.code v.session.1 v.session.2)
  | .bridge | .cnonce | .syncBridge | .uidCsum | .meshCsum | .remBridge =>
    .fld (.n f.code (v.nonce f))
  | .userHmac | .digest => .fld (.h f.code (v.nonce f))
  | .authKey | .sessKey => .fld (.k f.code (v.key f))
  | .pubkey => .fld (.kKey f.code v.pub)
  | .data | .meshFilter | .ucastFilter | .bloom => .fld (.o f.code (v.str f))
  | .sub | .subject | .pattern | .reply | .ucastUrl | .meshUrl | .connUrl | .tport | .tportType
  | .user | .service | .create | .expires | .version | .queue | .adjCost | .peer | .latency =>
    .fld (.b f.code (v.str f))
  | .interval | .refCnt | .adjInfo | .fmt | .hops | .tportid | .remTportid | .uid | .uidCnt
  | .meshInfo | .fdCnt | .cost | .hostId | .queueHash | .queueRefs | .hdrLen | .sufLen
  | .pathLimit => .fld (.i f.code (v.int f))
  | .subjHash => .fld (.i4 f.code (v.int f))
  | .authStage | .connPort | .idlService => .fld (.i2 f.code (v.short f))
  | .linkAdd | .bloomUpd | .idlRestart => .fld (.y f.code (v.flag f))
  | .pkDigest => .pkDigest
  | .pkSig => .pkSig
  | .peerDb | .meshDb | .ucastDb | .adjacency => .submsg f []
  | .seqno | .subSeqno | .subSeqnoSum | .time | .uptime | .token | .ret | .linkState
  | .linkStateSum | .start | .endNo | .authSeqno | .authTime | .refSeqno | .idlMsgLoss | .msTot
  | .mrTot | .bsTot | .brTot | .ms | .mr | .bs | .br | .subCnt | .chainSeqno | .stamp | .converge
  | .replyStamp | .hbSkew => .fld (.u f.code (v.num f))

/-- `MsgEst`: the method that reserves a field. -/
def Vals.est (v : Vals) (f : MsgFid) : ℕ :=
  match f with
  | .data | .meshFilter | .ucastFilter | .bloom
  | .sub | .subject | .pattern | .reply | .ucastUrl | .meshUrl | .connUrl | .tport | .tportType
  | .user | .service | .create | .expires | .version | .queue | .adjCost | .peer | .latency =>
    fidEstLen f (v.str f).length
  | _ => fidEst f

/-- The reservation of each field is enough for it. -/
theorem Vals.cap_item_le (v : Vals) (f : MsgFid) : (v.item f).cap ≤ v.est f := by
  cases f <;> simp [item, est, Item.cap, Item.size, Fld.cap, fidEst, fidEstLen] <;> omega

theorem Vals.size_item_le (v : Vals) (f : MsgFid) : (v.item f).size ≤ v.est f :=
  (v.item f).size_le_cap.trans (v.cap_item_le f)

/-- What the reservation of a field leaves when the field is written. -/
def Vals.spare (v : Vals) (f : MsgFid) : ℕ := v.est f - (v.item f).size

theorem Vals.est_eq (v : Vals) (f : MsgFid) : v.est f = (v.item f).size + v.spare f := by
  have hle := v.size_item_le f
  unfold spare
  omega

/-! ## §2 Drafts -/

/-- A write of a builder. -/
inductive Part where
  | fid (f : MsgFid)
  | dataFrag (len : ℕ)
  | submsg (f : MsgFid) (fields : List Fld)

/-- A reservation of a builder. -/
inductive Reserve where
  | fid (f : MsgFid)
  | dataFrag
  | submsg (f : MsgFid) (len : ℕ)

/-- The two lists of a builder; a write has the condition that it is made under. -/
structure Draft where
  reserves : List Reserve
  writes : List (Bool × Part)

/-- Fields, one after the other. -/
def puts (fs : List MsgFid) : List (Bool × Part) := fs.map fun f => (true, .fid f)

/-- `if ( c ) { ... }`. -/
def putIf (c : Bool) (ws : List (Bool × Part)) : List (Bool × Part) :=
  ws.map fun w => (c && w.1, w.2)

/-- A message inside of the message. -/
def putSub (f : MsgFid) (fields : List Fld) : List (Bool × Part) := [(true, .submsg f fields)]

def ests (fs : List MsgFid) : List Reserve := fs.map .fid

/-- `if ( c ) e. ...`. -/
def estIf (c : Bool) (rs : List Reserve) : List Reserve := if c then rs else []

namespace Vals

variable (v : Vals)

def part : Part → Item
  | .fid f => v.item f
  | .dataFrag len => .dataFrag len
  | .submsg f fields => .submsg f fields

def reserve : Reserve → ℕ
  | .fid f => v.est f
  | .dataFrag => fidEstLen .data 0
  | .submsg f len => fidEstLen f len

/-- The message of a draft. -/
def build (sublen : ℕ) (d : Draft) : MsgBuild :=
  ⟨sublen, msgEst sublen [] [] + (d.reserves.map v.reserve).sum,
    d.writes.map fun w => (w.1, v.part w.2)⟩

end Vals

def Part.fid? : Part → Option MsgFid
  | .fid f => some f
  | _ => none

def Reserve.fid? : Reserve → Option MsgFid
  | .fid f => some f
  | _ => none

namespace Draft

/-! ## §3 Safe drafts -/

/-- The fields that can be written, whatever the conditions. -/
def fids (ws : List (Bool × Part)) : List MsgFid := ws.filterMap fun w => w.2.fid?

/-- The fields that are reserved. -/
def estFids (rs : List Reserve) : List MsgFid := rs.filterMap Reserve.fid?

/-- What the other writes take. -/
def othersSize (ws : List (Bool × Part)) : ℕ :=
  (ws.map fun w =>
    match w.2 with
    | .fid _ => 0
    | .dataFrag _ => if w.1 then 6 else 0
    | .submsg _ fields => if w.1 then 6 + (fields.flatMap Fld.bytes).length else 0).sum

/-- What is reserved for them. -/
def othersEst (rs : List Reserve) : ℕ :=
  (rs.map fun r =>
    match r with
    | .fid _ => 0
    | .dataFrag => fidEstLen .data 0
    | .submsg f len => fidEstLen f len).sum

/-- The fields of one list are among those of another, as often. -/
def covers (est fs : List MsgFid) : Bool := fs.all fun f => fs.count f ≤ est.count f

/-! ### What a draft is made of -/

@[simp] theorem fids_append (ws us : List (Bool × Part)) :
    fids (ws ++ us) = fids ws ++ fids us := List.filterMap_append

@[simp] theorem fids_puts (fs : List MsgFid) : fids (puts fs) = fs := by
  induction fs with
  | nil => rfl
  | cons f fs ih => exact congrArg _ ih

@[simp] theorem fids_putIf (c : Bool) (ws : List (Bool × Part)) : fids (putIf c ws) = fids ws := by
  simp [fids, putIf, List.filterMap_map]

@[simp] theorem fids_putSub (f : MsgFid) (fields : List Fld) : fids (putSub f fields) = [] := rfl

@[simp] theorem estFids_append (rs qs : List Reserve) :
    estFids (rs ++ qs) = estFids rs ++ estFids qs := List.filterMap_append

@[simp] theorem estFids_ests (fs : List MsgFid) : estFids (ests fs) = fs := by
  induction fs with
  | nil => rfl
  | cons f fs ih => exact congrArg _ ih

@[simp] theorem othersSize_append (ws us : List (Bool × Part)) :
    othersSize (ws ++ us) = othersSize ws + othersSize us := by
  simp [othersSize]

@[simp] theorem othersSize_puts (fs : List MsgFid) : othersSize (puts fs) = 0 := by
  induction fs with
  | nil => rfl
  | cons f fs ih => exact (Nat.zero_add _).trans ih

@[simp] theorem othersSize_putIf (c : Bool) (ws : List (Bool × Part)) :
    othersSize (putIf c ws) = if c then othersSize ws else 0 := by
  cases c with
  | false =>
    refine List.sum_eq_zero ?_
    simp only [putIf, Bool.false_and, List.map_map, List.mem_map]
    rintro n ⟨⟨c, p⟩, -, rfl⟩
    cases p <;> rfl
  | true => simp [othersSize, putIf]

@[simp] theorem othersSize_putSub (f : MsgFid) (fields : List Fld) :
    othersSize (putSub f fields) = 6 + (fields.flatMap Fld.bytes).length := rfl

@[simp] theorem othersEst_append (rs qs : List Reserve) :
    othersEst (rs ++ qs) = othersEst rs + othersEst qs := by
  simp [othersEst]

@[simp] theorem othersEst_ests (fs : List MsgFid) : othersEst (ests fs) = 0 := by
  induction fs with
  | nil => rfl
  | cons f fs ih => exact (Nat.zero_add _).trans ih

@[simp] theorem othersEst_submsg (f : MsgFid) (len : ℕ) :
    othersEst [.submsg f len] = fidEstLen f len := rfl

@[simp] theorem othersEst_dataFrag : othersEst [.dataFrag] = fidEstLen .data 0 := rfl

@[simp] theorem estFids_submsg (f : MsgFid) (len : ℕ) : estFids [.submsg f len] = [] := rfl

@[simp] theorem estFids_dataFrag : estFids [.dataFrag] = [] := rfl

/-! ### Enough is reserved -/

theorem sum_le_of_covers {est fs : List MsgFid} (h : covers est fs) (g : MsgFid → ℕ) :
    (fs.map g).sum ≤ (est.map g).sum := by
  have hsub : fs.Subperm est := by
    rw [List.subperm_ext_iff]
    simpa [covers] using h
  obtain ⟨fs', hperm, hsublist⟩ := hsub
  calc (fs.map g).sum = (fs'.map g).sum := ((hperm.map g).sum_eq).symm
    _ ≤ (est.map g).sum := (hsublist.map g).sum_le_sum fun _ _ => Nat.zero_le _

theorem sum_reserve (v : Vals) (rs : List Reserve) :
    (rs.map v.reserve).sum = ((estFids rs).map v.est).sum + othersEst rs := by
  induction rs with
  | nil => rfl
  | cons r rs ih =>
    rw [List.map_cons, List.sum_cons, ih]
    cases r with
    | fid f =>
      simp only [estFids, othersEst, Reserve.fid?, Vals.reserve, List.filterMap_cons, List.map_cons,
        List.sum_cons]
      omega
    | dataFrag =>
      simp only [estFids, othersEst, Reserve.fid?, Vals.reserve, List.filterMap_cons, List.map_cons,
        List.sum_cons]
      omega
    | submsg f len =>
      simp only [estFids, othersEst, Reserve.fid?, Vals.reserve, List.filterMap_cons, List.map_cons,
        List.sum_cons]
      omega

/-- The bytes of one write. -/
def writeSize (v : Vals) (w : Bool × Part) : ℕ := if w.1 then (v.part w.2).size else 0

theorem size_script (v : Vals) (ws : List (Bool × Part)) :
    Script.size (ws.map fun w => (w.1, v.part w.2)) = (ws.map (writeSize v)).sum := by
  induction ws with
  | nil => rfl
  | cons w ws ih =>
    obtain ⟨c, p⟩ := w
    rw [List.map_cons, List.map_cons, List.sum_cons, ← ih]
    cases c with
    | false => exact (Nat.zero_add _).symm
    | true => rfl

theorem sum_writeSize_le_caps (v : Vals) (ws : List (Bool × Part)) :
    (ws.map (writeSize v)).sum ≤ ((fids ws).map fun f => (v.item f).cap).sum + othersSize ws := by
  induction ws with
  | nil => exact le_refl 0
  | cons w ws ih =>
    obtain ⟨c, p⟩ := w
    rw [List.map_cons, List.sum_cons]
    cases p with
    | fid f =>
      have hf : writeSize v (c, .fid f) ≤ (v.item f).cap := by
        unfold writeSize
        split
        · exact (v.item f).size_le_cap
        · exact Nat.zero_le _
      simp only [fids, othersSize, Part.fid?, List.filterMap_cons, List.map_cons,
        List.sum_cons] at ih ⊢
      omega
    | dataFrag len =>
      simp only [fids, othersSize, Part.fid?, List.filterMap_cons, List.map_cons,
        List.sum_cons, writeSize, Vals.part, Item.size] at ih ⊢
      omega
    | submsg f fields =>
      simp only [fids, othersSize, Part.fid?, List.filterMap_cons, List.map_cons,
        List.sum_cons, writeSize, Vals.part, Item.size] at ih ⊢
      omega

theorem sum_writeSize_le (v : Vals) (ws : List (Bool × Part)) :
    (ws.map (writeSize v)).sum ≤ ((fids ws).map v.est).sum + othersSize ws := by
  refine (sum_writeSize_le_caps v ws).trans (Nat.add_le_add_right ?_ _)
  exact List.sum_le_sum fun f _ => v.cap_item_le f

/-- What is written against what is reserved. -/
theorem fits_build_iff (v : Vals) (sublen : ℕ) (d : Draft) :
    (v.build sublen d).Fits ↔
      sublen % 2 + (d.writes.map (writeSize v)).sum ≤ 1 + (d.reserves.map v.reserve).sum := by
  rw [MsgBuild.fits_iff]
  simp only [Vals.build, size_script, msgEst, estFields, fidEst, fidEstLen, List.map_nil,
    List.sum_nil]
  omega

/-- A draft that reserves every field that it writes, and for the other parts what they
take, fits. -/
theorem fits_of_covers {d : Draft} (v : Vals) (sublen : ℕ)
    (hfids : covers (estFids d.reserves) (fids d.writes))
    (hothers : othersSize d.writes ≤ othersEst d.reserves) : (v.build sublen d).Fits := by
  have hle := sum_le_of_covers hfids v.est
  have hsize := sum_writeSize_le v d.writes
  have hodd : sublen % 2 < 2 := Nat.mod_lt _ (by decide)
  rw [fits_build_iff, sum_reserve]
  omega

theorem fits_of_safe {d : Draft} (v : Vals) (sublen : ℕ)
    (h : covers (estFids d.reserves) (fids d.writes) ∧
      othersSize d.writes ≤ othersEst d.reserves) : (v.build sublen d).Fits :=
  fits_of_covers v sublen h.1 h.2

/-! ### What is written -/

@[simp] theorem sum_writeSize_puts (v : Vals) (fs : List MsgFid) :
    ((puts fs).map (writeSize v)).sum = (fs.map fun f => (v.item f).size).sum := by
  rw [puts, List.map_map]
  rfl

@[simp] theorem sum_writeSize_putIf (v : Vals) (c : Bool) (ws : List (Bool × Part)) :
    ((putIf c ws).map (writeSize v)).sum = if c then (ws.map (writeSize v)).sum else 0 := by
  cases c with
  | false =>
    refine List.sum_eq_zero ?_
    simp [putIf, writeSize]
  | true => simp [putIf]

@[simp] theorem sum_writeSize_putSub (v : Vals) (f : MsgFid) (fields : List Fld) :
    ((putSub f fields).map (writeSize v)).sum = 6 + (fields.flatMap Fld.bytes).length := rfl

@[simp] theorem sum_reserve_ests (v : Vals) (fs : List MsgFid) :
    ((ests fs).map v.reserve).sum = (fs.map v.est).sum := by
  rw [ests, List.map_map]
  rfl

@[simp] theorem sum_reserve_estIf (v : Vals) (c : Bool) (rs : List Reserve) :
    ((estIf c rs).map v.reserve).sum = if c then (rs.map v.reserve).sum else 0 := by
  cases c <;> rfl

/-- A write that is not made takes nothing. -/
theorem fits_putIf_false (v : Vals) (sublen : ℕ) (rs : List Reserve)
    (ws us ts : List (Bool × Part)) :
    (v.build sublen ⟨rs, ws ++ putIf false us ++ ts⟩).Fits ↔
      (v.build sublen ⟨rs, ws ++ ts⟩).Fits := by
  simp only [fits_build_iff, List.map_append, List.sum_append, sum_writeSize_putIf,
    Bool.false_eq_true, if_false, Nat.add_zero]

end Draft

end Raims
