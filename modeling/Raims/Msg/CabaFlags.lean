import Mathlib.Data.Nat.Bitwise
import Raims.Msg.PublishType

/-!
# The flags of a message (`CabaFlags`)

Sixteen bits in front of the length: the version (1), the type (2), the
options (5) and the path (8). A message of path zero sets the option
`CABA_OPT_ZPATH` and puts its publish type where the path stands.
-/

namespace Raims

/-- `CabaTypeFlag` -/
inductive CabaTypeFlag
  | mcast | inbox | rtrAlert | heartbeat
deriving DecidableEq, Repr

def CabaTypeFlag.code : CabaTypeFlag → BitVec 16
  | .mcast => 0
  | .inbox => 1
  | .rtrAlert => 2
  | .heartbeat => 3

structure CabaFlags where
  flags : BitVec 16
deriving DecidableEq, Repr

/-- `CABA_MSG_VERSION` -/
def cabaMsgVersion : BitVec 16 := 1

/-- `CABA_OPT_ANY` -/
def cabaOptAny : BitVec 16 := 4

/-- `CABA_OPT_ZPATH` -/
def cabaOptZpath : BitVec 16 := 16

namespace CabaFlags

def verBits : Nat := 1
def typeBits : Nat := 2
def optBits : Nat := 5
def pathBits : Nat := 8

def verShift : Nat := 16 - verBits
def typeShift : Nat := verShift - typeBits
def optShift : Nat := typeShift - optBits
def pathShift : Nat := optShift - pathBits

/-- The mask of a field of so many bits. -/
def mask (bits : Nat) : BitVec 16 := BitVec.ofNat 16 (2 ^ bits - 1)

def verMask : BitVec 16 := mask verBits
def typeMask : BitVec 16 := mask typeBits
def optMask : BitVec 16 := mask optBits
def pathMask : BitVec 16 := mask pathBits

def lsh (v : BitVec 16) (sh : Nat) (m : BitVec 16) : BitVec 16 := (v &&& m) <<< sh
def rsh (v : BitVec 16) (sh : Nat) (m : BitVec 16) : BitVec 16 := (v >>> sh) &&& m

/-- `CabaFlags( CabaTypeFlag t )` -/
def ofType (t : CabaTypeFlag) : CabaFlags :=
  ⟨lsh cabaMsgVersion verShift verMask ||| lsh t.code typeShift typeMask⟩

def getVer (f : CabaFlags) : BitVec 16 := rsh f.flags verShift verMask
def getType (f : CabaFlags) : BitVec 16 := rsh f.flags typeShift typeMask
def getOpt (f : CabaFlags) : BitVec 16 := rsh f.flags optShift optMask

/-- `get_path`: zero with `CABA_OPT_ZPATH`. -/
def getPath (f : CabaFlags) : BitVec 16 :=
  if f.getOpt &&& cabaOptZpath ≠ 0 then 0 else rsh f.flags pathShift pathMask

/-- `get_ztype`: the publish type of a message with `CABA_OPT_ZPATH`. -/
def getZtype (f : CabaFlags) : BitVec 16 :=
  if f.getOpt &&& cabaOptZpath = 0 then 0 else rsh f.flags pathShift pathMask

/-- `set` -/
def set (fl v : BitVec 16) (sh : Nat) (m : BitVec 16) : BitVec 16 :=
  lsh v sh m ||| (fl &&& ~~~ lsh m sh m)

def setOpt (f : CabaFlags) (opt : BitVec 16) : CabaFlags := ⟨set f.flags opt optShift optMask⟩
def setPath (f : CabaFlags) (p : BitVec 16) : CabaFlags := ⟨set f.flags p pathShift pathMask⟩

/-- The flags that `close_zpath` writes. -/
def zpath (f : CabaFlags) (t : PublishType) : CabaFlags :=
  (f.setOpt (f.getOpt ||| cabaOptZpath)).setPath (BitVec.ofNat 16 (t.code % 256))

theorem getVer_ofType (t : CabaTypeFlag) : (ofType t).getVer = cabaMsgVersion := by
  cases t <;> decide

theorem getType_ofType (t : CabaTypeFlag) : (ofType t).getType = t.code := by
  cases t <;> decide

@[simp] theorem getElem_mask (bits i : Nat) (hi : i < 16) :
    (mask bits)[i] = decide (i < bits) := by
  rw [← BitVec.getLsbD_eq_getElem, mask, BitVec.getLsbD_ofNat, Nat.testBit_two_pow_sub_one]
  simp [hi]

/-- A field that was set reads back. -/
theorem rsh_set_self (fl v : BitVec 16) {sh bits : Nat} (h : sh + bits ≤ 16) :
    rsh (set fl v sh (mask bits)) sh (mask bits) = v &&& mask bits := by
  ext i hi
  by_cases hb : i < bits
  · have h16 : sh + i < 16 := by omega
    have hlt : ¬ sh + i < sh := by omega
    simp [rsh, set, lsh, hb, h16, hlt]
  · simp [rsh, hb]

/-- A field keeps its value when another one is set. -/
theorem rsh_set_other (fl v : BitVec 16) {sh bits sh' bits' : Nat}
    (h : sh' + bits' ≤ sh ∨ sh + bits ≤ sh') :
    rsh (set fl v sh (mask bits)) sh' (mask bits') = rsh fl sh' (mask bits') := by
  ext i hi
  by_cases hb : i < bits'
  · by_cases h16 : sh' + i < 16
    · by_cases hlt : sh' + i < sh
      · simp [rsh, set, lsh, hb, h16, hlt]
      · have hge : ¬ sh' + i - sh < bits := by omega
        simp [rsh, set, lsh, hb, h16, hlt, hge]
    · simp [rsh, set, lsh, BitVec.getLsbD_of_ge _ _ (Nat.le_of_not_lt h16)]
  · simp [rsh, hb]

theorem getVer_zpath (f : CabaFlags) (t : PublishType) : (f.zpath t).getVer = f.getVer :=
  (rsh_set_other _ _ (.inr (by decide))).trans (rsh_set_other _ _ (.inr (by decide)))

theorem getType_zpath (f : CabaFlags) (t : PublishType) : (f.zpath t).getType = f.getType :=
  (rsh_set_other _ _ (.inr (by decide))).trans (rsh_set_other _ _ (.inr (by decide)))

theorem getOpt_zpath (f : CabaFlags) (t : PublishType) :
    (f.zpath t).getOpt = f.getOpt ||| cabaOptZpath := by
  have h : (f.zpath t).getOpt = (f.getOpt ||| cabaOptZpath) &&& optMask :=
    (rsh_set_other _ _ (.inr (by decide))).trans (rsh_set_self _ _ (by decide))
  rw [h]
  ext i hi
  by_cases hb : i < 5
  · simp [optMask, optBits, hb]
  · have hz : cabaOptZpath[i] = false := by
      revert i
      decide
    simp [getOpt, rsh, optMask, optBits, hb, hz]

theorem zpath_opt (f : CabaFlags) (t : PublishType) :
    (f.zpath t).getOpt &&& cabaOptZpath ≠ 0 := by
  rw [getOpt_zpath]
  intro h
  have h4 := congrArg (BitVec.getLsbD · 4) h
  simp [cabaOptZpath] at h4

theorem getPath_zpath (f : CabaFlags) (t : PublishType) : (f.zpath t).getPath = 0 :=
  if_pos (zpath_opt f t)

theorem getZtype_zpath (f : CabaFlags) (t : PublishType) :
    (f.zpath t).getZtype = BitVec.ofNat 16 t.code := by
  have h : (f.zpath t).getZtype = BitVec.ofNat 16 (t.code % 256) &&& pathMask :=
    (if_neg (zpath_opt f t)).trans (rsh_set_self _ _ (by decide))
  rw [h]
  cases t <;> decide

end CabaFlags

end Raims
