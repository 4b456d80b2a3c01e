import Mathlib.Data.List.Basic
import Raims.Lib.Segments

/-!
# The routes of a peer, by transport (`user_route_ptr`)

A peer has a `UserRoute` for each transport. They are made when they are first asked
for, in segments that double, so that the pointers to them stay. The segment of a
transport is counted from the leading zeros of its id.
-/

namespace Raims

/-! ## The route -/

def IS_INIT_STATE : UInt32 := 0x8000
def NO_RTE : Int := -1

/-- `UserRoute`, less its owner, its urls and the list that it is in. The transport is
its id. -/
structure TportRoute where
  rte : UInt32
  mcastFd : Int
  inboxFd : Int
  state : UInt32
  urlHash : UInt32
  listId : Int
  bytesSent : UInt64
  msgsSent : UInt64
deriving DecidableEq

namespace TportRoute

/-- The bytes are all zero. -/
def zero : TportRoute := ⟨0, 0, 0, 0, 0, 0, 0, 0⟩

variable (u : TportRoute)

def isInit : Bool := u.state &&& IS_INIT_STATE ≠ 0

def invalidate : TportRoute :=
  { u with state := IS_INIT_STATE, urlHash := 0, bytesSent := 0, msgsSent := 0 }

def reset : TportRoute :=
  { u with mcastFd := NO_RTE, inboxFd := NO_RTE, listId := NO_RTE }.invalidate

/-- `UserRoute( n, rte )` -/
def new (rte : UInt32) : TportRoute := { zero with rte := rte }.reset

end TportRoute

/-! ## The segments -/

def USER_ROUTE_SHIFT : UInt32 := 4
def USER_ROUTE_BASE : UInt32 := 1 <<< USER_ROUTE_SHIFT

/-- `kv_clzw`: the leading zeros of a word that is not zero. -/
def kvClzw (x : UInt32) : UInt32 := ⟨x.toBitVec.clz⟩

/-- The segment of a transport in `user_route_ptr`. -/
def userRouteSeg (id : UInt32) : UInt32 := 31 - kvClzw ((id >>> USER_ROUTE_SHIFT) + 1)

/-- The place in the segment in `user_route_ptr`. -/
def userRouteIdx (id : UInt32) : UInt32 :=
  id - ((((1 : UInt32) <<< userRouteSeg id) - 1) <<< USER_ROUTE_SHIFT)

/-- `u_buf` of a `UserBridge`: the segments that are there. What is not in the array of
segments, or not in a segment, is none. -/
structure RouteBuf where
  uBuf : List (Option (List TportRoute))

namespace RouteBuf

/-- The buffer that `add_user` makes: the first segment comes with the peer. -/
def new : RouteBuf :=
  ⟨some (List.replicate USER_ROUTE_BASE.toNat .zero) :: List.replicate 23 none⟩

variable (b : RouteBuf)

/-- `init_user_route`, when there are `count` transports. -/
def initUserRoute (count i j id : UInt32) : Option (RouteBuf × TportRoute) := do
  let seg ← b.uBuf[i.toNat]?
  let us := seg.getD (List.replicate (USER_ROUTE_BASE <<< i).toNat .zero)
  let u := if id < count then TportRoute.new id else .zero
  if j.toNat < us.length then
    return (⟨b.uBuf.set i.toNat (some (us.set j.toNat u))⟩, u)
  else none

/-- `user_route_ptr`, and the route that is pointed to. -/
def userRoutePtr (count id : UInt32) : Option (RouteBuf × TportRoute) := do
  let i := userRouteSeg id
  let j := userRouteIdx id
  let seg ← b.uBuf[i.toNat]?
  match seg with
  | some us =>
    let u ← us[j.toNat]?
    if u.isInit then return (b, u) else b.initUserRoute count i j id
  | none => b.initUserRoute count i j id

/-- What is stored through the pointer of a transport. -/
def store (id : UInt32) (u : TportRoute) : RouteBuf :=
  ⟨b.uBuf.modify (userRouteSeg id).toNat
    (Option.map fun us => us.set (userRouteIdx id).toNat u)⟩

/-- The inner loop of `user_route_reset`. -/
def resetSeg (i : ℕ) (us : List TportRoute) : Option (List TportRoute) :=
  (List.range (USER_ROUTE_BASE <<< UInt32.ofNat i).toNat).foldlM
    (fun us j => us[j]?.map fun u => if u.isInit then us.set j u.reset else us) us

/-- `user_route_reset` -/
def userRouteReset : Option RouteBuf := do
  let segs ← (List.range 24).foldlM
    (fun segs i => do
      match ← segs[i]? with
      | none => return segs
      | some us => return segs.set i (some (← resetSeg i us))) b.uBuf
  return ⟨segs⟩

end RouteBuf

/-- A caller asks for the route of a transport and may write to it, or the peer is
removed. -/
inductive RouteUse where
  | route (count id : UInt32) (write : TportRoute → TportRoute)
  | reset

/-- The transport ids are below `2 ^ 27`. -/
def RouteUse.InRange : RouteUse → Prop
  | .route _ id _ => id.toNat < 2 ^ 27
  | .reset => True

namespace RouteBuf

/-- A use and the route that the caller was given; none when it leaves the memory. -/
def use (b : RouteBuf) : RouteUse → Option (RouteBuf × Option TportRoute)
  | .route count id write => do
      let (b, u) ← b.userRoutePtr count id
      return (b.store id (write u), some u)
  | .reset => do return (← b.userRouteReset, none)

/-- The routes given in a run. -/
def uses (b : RouteBuf) : List RouteUse → Option (List (Option TportRoute))
  | [] => some []
  | e :: es => do
      let (b, u) ← b.use e
      return u :: (← b.uses es)

end RouteBuf

/-! ## A route for each transport -/

/-- The routes of a peer, when each transport has its own. -/
abbrev RouteTab := UInt32 → TportRoute

namespace RouteTab

def new : RouteTab := fun _ => .zero

/-- The route of a transport, made if it is not there. -/
def get (r : RouteTab) (count id : UInt32) : TportRoute :=
  if (r id).isInit then r id else if id < count then .new id else .zero

def use (r : RouteTab) : RouteUse → RouteTab × Option TportRoute
  | .route count id write =>
    (Function.update r id (write (r.get count id)), some (r.get count id))
  | .reset => (fun id => if (r id).isInit then (r id).reset else r id, none)

def uses (r : RouteTab) : List RouteUse → List (Option TportRoute)
  | [] => []
  | e :: es => (r.use e).2 :: uses (r.use e).1 es

end RouteTab

/-! ## Segment and place -/

theorem toNat_shift (id : UInt32) :
    ((id >>> USER_ROUTE_SHIFT) + 1).toNat = id.toNat / 16 + 1 := by
  have hlt := id.toNat_lt
  have hshift : (id >>> USER_ROUTE_SHIFT).toNat = id.toNat / 16 :=
    (UInt32.toNat_shiftRight id USER_ROUTE_SHIFT).trans (Nat.shiftRight_eq_div_pow _ _)
  rw [UInt32.toNat_add, hshift, UInt32.toNat_one]
  omega

/-- The leading zeros count the logarithm. -/
theorem toNat_sub_kvClzw {x : UInt32} (hx : x ≠ 0) :
    (31 - kvClzw x).toNat = Nat.log 2 x.toNat := by
  have hne : x.toBitVec ≠ 0#32 := fun h => hx (UInt32.toBitVec_inj.1 h)
  have hle := BitVec.two_pow_sub_clz_le_toNat_of_ne_zero (by decide) hne
  have hlt := BitVec.toNat_lt_two_pow_sub_clz (x := x.toBitVec)
  have hclz : (kvClzw x).toNat < 32 := BitVec.lt_def.1 (BitVec.clz_lt_iff_ne_zero.2 hne)
  have hsub : (31 - kvClzw x).toNat = 31 - (kvClzw x).toNat := by
    rw [UInt32.toNat_sub]
    show (2 ^ 32 - (kvClzw x).toNat + 31) % 2 ^ 32 = _
    omega
  have hsucc : 32 - (kvClzw x).toNat = 31 - (kvClzw x).toNat + 1 := by omega
  rw [hsub]
  have hlt' : x.toNat < 2 ^ (31 - (kvClzw x).toNat + 1) := hsucc ▸ hlt
  exact (Nat.log_eq_of_pow_le_of_lt_pow hle hlt').symm

theorem toNat_userRouteSeg (id : UInt32) :
    (userRouteSeg id).toNat = Segments.seg 16 id.toNat := by
  have hne : (id >>> USER_ROUTE_SHIFT) + 1 ≠ 0 := by
    intro h
    have hzero : ((id >>> USER_ROUTE_SHIFT) + 1).toNat = 0 := by rw [h]; rfl
    rw [toNat_shift] at hzero
    exact Nat.succ_ne_zero _ hzero
  rw [userRouteSeg, toNat_sub_kvClzw hne, toNat_shift]
  rfl

theorem seg_le (id : UInt32) : Segments.seg 16 id.toNat ≤ 28 := by
  have hlt := id.toNat_lt
  have hseg : Segments.seg 16 id.toNat < 29 := by
    apply Segments.seg_lt (by decide)
    show id.toNat < 16 * (2 ^ 29 - 1)
    omega
  exact Nat.le_of_lt_succ hseg

theorem toNat_one_shift {i : UInt32} (hi : i.toNat ≤ 28) :
    ((1 : UInt32) <<< i).toNat = 2 ^ i.toNat := by
  have hpow : 2 ^ i.toNat ≤ 2 ^ 28 := Nat.pow_le_pow_right (by decide) hi
  rw [UInt32.toNat_shiftLeft, Nat.mod_eq_of_lt (by omega : i.toNat < 32), Nat.shiftLeft_eq,
    UInt32.toNat_one, Nat.one_mul]
  exact Nat.mod_eq_of_lt (by omega)

/-- The geometric sum is the first id of the segment. -/
theorem toNat_userRouteIdx (id : UInt32) :
    (userRouteIdx id).toNat = Segments.off 16 id.toNat := by
  have hseg := toNat_userRouteSeg id
  have hpow : 2 ^ (userRouteSeg id).toNat ≤ 2 ^ 28 :=
    Nat.pow_le_pow_right (by decide) (hseg ▸ seg_le id)
  have hone := toNat_one_shift (hseg ▸ seg_le id : (userRouteSeg id).toNat ≤ 28)
  have hpos : 0 < 2 ^ (userRouteSeg id).toNat := Nat.two_pow_pos _
  have hsub : (((1 : UInt32) <<< userRouteSeg id) - 1).toNat = 2 ^ (userRouteSeg id).toNat - 1 := by
    rw [UInt32.toNat_sub, hone, UInt32.toNat_one]
    omega
  have hstart : ((((1 : UInt32) <<< userRouteSeg id) - 1) <<< USER_ROUTE_SHIFT).toNat =
      Segments.start 16 (Segments.seg 16 id.toNat) := by
    rw [UInt32.toNat_shiftLeft, hsub, Segments.start, ← hseg, Nat.shiftLeft_eq]
    show (2 ^ (userRouteSeg id).toNat - 1) * 16 % 2 ^ 32 = _
    omega
  have hle : Segments.start 16 (Segments.seg 16 id.toNat) ≤ id.toNat :=
    Segments.start_seg_le (by decide)
  have hlt := id.toNat_lt
  rw [userRouteIdx, UInt32.toNat_sub, hstart, Segments.off]
  omega

theorem seg_lt_of_lt {id : UInt32} (hid : id.toNat < 2 ^ 27) : (userRouteSeg id).toNat < 24 := by
  rw [toNat_userRouteSeg]
  apply Segments.seg_lt (by decide)
  show id.toNat < 16 * (2 ^ 24 - 1)
  omega

theorem toNat_base_shift {i : UInt32} (hi : i.toNat < 24) :
    (USER_ROUTE_BASE <<< i).toNat = 16 * 2 ^ i.toNat := by
  have hpow : 2 ^ i.toNat ≤ 2 ^ 23 := Nat.pow_le_pow_right (by decide) (Nat.le_of_lt_succ hi)
  rw [UInt32.toNat_shiftLeft, Nat.mod_eq_of_lt (by omega : i.toNat < 32), Nat.shiftLeft_eq]
  show 16 * 2 ^ i.toNat % 2 ^ 32 = _
  exact Nat.mod_eq_of_lt (by omega)

theorem idx_lt (id : UInt32) :
    (userRouteIdx id).toNat < 16 * 2 ^ (userRouteSeg id).toNat := by
  rw [toNat_userRouteIdx, toNat_userRouteSeg]
  exact Segments.off_lt (by decide)

/-- Two transports are not at one place. -/
theorem id_inj {id id' : UInt32} (hseg : userRouteSeg id = userRouteSeg id')
    (hidx : userRouteIdx id = userRouteIdx id') : id = id' := by
  apply UInt32.toNat_inj.1
  apply Segments.eq_of_seg_off (show 0 < 16 by decide)
  · rw [← toNat_userRouteSeg, ← toNat_userRouteSeg, hseg]
  · rw [← toNat_userRouteIdx, ← toNat_userRouteIdx, hidx]

/-! ## The loops of a reset -/

/-- A loop that writes each element of a list in its turn. -/
theorem foldlM_range_set {α : Type} {f : α → α} {step : List α → ℕ → Option (List α)} {l : List α}
    (hstep : ∀ l' j a, l[j]? = some a → l'[j]? = some a → step l' j = some (l'.set j (f a))) :
    (List.range l.length).foldlM step l = some (l.map f) := by
  have hprefix : ∀ k, k ≤ l.length →
      (List.range k).foldlM step l = some ((l.take k).map f ++ l.drop k) := by
    intro k
    induction k with
    | zero => exact fun _ => rfl
    | succ k ih =>
      intro hk
      have hlen : ((l.take k).map f).length = k := by
        rw [List.length_map, List.length_take, Nat.min_eq_left (Nat.le_of_succ_le hk)]
      have hget : l[k]? = some l[k] := List.getElem?_eq_getElem hk
      have hcur : ((l.take k).map f ++ l.drop k)[k]? = some l[k] := by
        rw [List.getElem?_append_right (Nat.le_of_eq hlen), hlen, Nat.sub_self,
          List.getElem?_drop]
        exact hget
      rw [List.range_succ, List.foldlM_append, ih (Nat.le_of_succ_le hk)]
      show (List.foldlM step _ [k] : Option (List α)) = _
      rw [List.foldlM_cons, hstep _ k l[k] hget hcur]
      show some _ = some _
      rw [List.set_append_right _ _ (Nat.le_of_eq hlen), hlen, Nat.sub_self,
        List.drop_eq_getElem_cons hk, List.set_cons_zero, List.take_add_one, hget,
        List.map_append, List.append_assoc]
      rfl
  have hall := hprefix l.length (Nat.le_refl _)
  rwa [List.take_length, List.drop_length, List.append_nil] at hall

/-- What a reset does to a route. -/
def TportRoute.cleared (u : TportRoute) : TportRoute := if u.isInit then u.reset else u

theorem toNat_base_shift_ofNat {i : ℕ} (hi : i < 24) :
    (USER_ROUTE_BASE <<< UInt32.ofNat i).toNat = 16 * 2 ^ i := by
  have hof : (UInt32.ofNat i).toNat = i := by
    rw [UInt32.toNat_ofNat']
    exact Nat.mod_eq_of_lt (by omega)
  rw [toNat_base_shift (hof.symm ▸ hi), hof]

namespace RouteBuf

theorem resetSeg_eq {i : ℕ} {us : List TportRoute} (hi : i < 24) (hlen : us.length = 16 * 2 ^ i) :
    resetSeg i us = some (us.map TportRoute.cleared) := by
  rw [resetSeg, toNat_base_shift_ofNat hi, ← hlen]
  apply foldlM_range_set
  intro l j u _ hu
  rw [hu, Option.map_some, TportRoute.cleared]
  split
  · rfl
  · obtain ⟨hj, rfl⟩ := List.getElem?_eq_some_iff.1 hu
    rw [List.set_getElem_self]

end RouteBuf

/-! ## Each transport has its own route -/

/-- The buffer has the routes of the table: the segments that are there have their length,
and in those that are not no route was made. -/
structure RouteBuf.Holds (b : RouteBuf) (r : RouteTab) : Prop where
  length : b.uBuf.length = 24
  seg : ∀ (i : ℕ) us, b.uBuf[i]? = some (some us) → us.length = 16 * 2 ^ i
  route : ∀ id : UInt32, id.toNat < 2 ^ 27 → ∀ us,
    b.uBuf[(userRouteSeg id).toNat]? = some (some us) → us[(userRouteIdx id).toNat]? = some (r id)
  unmade : ∀ id : UInt32, id.toNat < 2 ^ 27 →
    b.uBuf[(userRouteSeg id).toNat]? = some none → r id = .zero

variable {b : RouteBuf} {r : RouteTab} {id : UInt32}

namespace RouteBuf

theorem holds_new : RouteBuf.new.Holds .new where
  length := rfl
  seg i us h := by
    cases i with
    | zero =>
      obtain rfl := Option.some.inj (Option.some.inj h)
      exact List.length_replicate
    | succ i =>
      rw [new, List.getElem?_cons_succ] at h
      have hmem := List.mem_of_getElem? h
      exact absurd (List.eq_of_mem_replicate hmem) (Option.some_ne_none us)
  route id hid us h := by
    have hidx := idx_lt id
    cases hseg : (userRouteSeg id).toNat with
    | zero =>
      rw [hseg] at h hidx
      obtain rfl := Option.some.inj (Option.some.inj h)
      rw [List.getElem?_replicate]
      exact if_pos (show _ < USER_ROUTE_BASE.toNat from hidx)
    | succ i =>
      rw [hseg, new, List.getElem?_cons_succ] at h
      have hmem := List.mem_of_getElem? h
      exact absurd (List.eq_of_mem_replicate hmem) (Option.some_ne_none us)
  unmade _ _ _ := rfl

/-- A route is written to its segment, which is there or has just been made. -/
theorem Holds.put (h : b.Holds r) (hid : id.toNat < 2 ^ 27) {us : List TportRoute}
    (hlen : us.length = 16 * 2 ^ (userRouteSeg id).toNat)
    (hroutes : ∀ id' : UInt32, id'.toNat < 2 ^ 27 → userRouteSeg id' = userRouteSeg id →
      us[(userRouteIdx id').toNat]? = some (r id'))
    (u : TportRoute) :
    Holds ⟨b.uBuf.set (userRouteSeg id).toNat (some (us.set (userRouteIdx id).toNat u))⟩
      (Function.update r id u) := by
  have hin : (userRouteSeg id).toNat < b.uBuf.length := h.length.symm ▸ seg_lt_of_lt hid
  refine ⟨?_, ?_, ?_, ?_⟩
  · rw [List.length_set, h.length]
  · intro i us' hus
    by_cases hi : (userRouteSeg id).toNat = i
    · subst hi
      rw [List.getElem?_set_self hin] at hus
      obtain rfl := Option.some.inj (Option.some.inj hus)
      rw [List.length_set, hlen]
    · rw [List.getElem?_set_ne hi] at hus
      exact h.seg i us' hus
  · intro id' hid' us' hus
    by_cases hseg : userRouteSeg id' = userRouteSeg id
    · rw [hseg, List.getElem?_set_self hin] at hus
      obtain rfl := Option.some.inj (Option.some.inj hus)
      by_cases hsame : id' = id
      · subst hsame
        rw [Function.update_self, List.getElem?_set_self (hlen.symm ▸ idx_lt id')]
      · -- another transport is at another place
        have hidx : (userRouteIdx id).toNat ≠ (userRouteIdx id').toNat := by
          intro heq
          exact hsame (id_inj hseg (UInt32.toNat_inj.1 heq.symm))
        rw [Function.update_of_ne hsame, List.getElem?_set_ne hidx]
        exact hroutes id' hid' hseg
    · have hne : (userRouteSeg id).toNat ≠ (userRouteSeg id').toNat :=
        fun heq => hseg (UInt32.toNat_inj.1 heq.symm)
      have hsame : id' ≠ id := fun heq => hseg (heq ▸ rfl)
      rw [List.getElem?_set_ne hne] at hus
      rw [Function.update_of_ne hsame]
      exact h.route id' hid' us' hus
  · intro id' hid' hnone
    have hne : (userRouteSeg id).toNat ≠ (userRouteSeg id').toNat := by
      intro heq
      rw [← heq, List.getElem?_set_self hin] at hnone
      exact Option.some_ne_none _ (Option.some.inj hnone)
    have hsame : id' ≠ id := fun heq => hne (heq ▸ rfl)
    rw [List.getElem?_set_ne hne] at hnone
    rw [Function.update_of_ne hsame]
    exact h.unmade id' hid' hnone

/-- What `init_user_route` makes. -/
theorem Holds.initUserRoute (h : b.Holds r) (hid : id.toNat < 2 ^ 27) (count : UInt32) :
    ∃ us, b.initUserRoute count (userRouteSeg id) (userRouteIdx id) id =
        some (⟨b.uBuf.set (userRouteSeg id).toNat (some us)⟩,
          if id < count then .new id else .zero) ∧
      Holds ⟨b.uBuf.set (userRouteSeg id).toNat (some us)⟩
        (Function.update r id (if id < count then .new id else .zero)) := by
  have hin : (userRouteSeg id).toNat < b.uBuf.length := h.length.symm ▸ seg_lt_of_lt hid
  have hidx := idx_lt id
  unfold RouteBuf.initUserRoute
  rw [List.getElem?_eq_getElem hin]
  cases hseg : b.uBuf[(userRouteSeg id).toNat] with
  | some us =>
    have hus : b.uBuf[(userRouteSeg id).toNat]? = some (some us) :=
      (List.getElem?_eq_getElem hin).trans (congrArg some hseg)
    have hlen := h.seg _ us hus
    refine ⟨_, if_pos (hlen.symm ▸ hidx), h.put hid hlen (fun id' hid' hseg' => ?_) _⟩
    exact h.route id' hid' us (hseg' ▸ hus)
  | none =>
    have hnone : b.uBuf[(userRouteSeg id).toNat]? = some none :=
      (List.getElem?_eq_getElem hin).trans (congrArg some hseg)
    have hlen : (List.replicate (USER_ROUTE_BASE <<< userRouteSeg id).toNat
        TportRoute.zero).length = 16 * 2 ^ (userRouteSeg id).toNat := by
      rw [List.length_replicate, toNat_base_shift (seg_lt_of_lt hid)]
    refine ⟨_, if_pos (hlen.symm ▸ hidx), h.put hid hlen (fun id' hid' hseg' => ?_) _⟩
    have hidx' := idx_lt id'
    rw [hseg', ← toNat_base_shift (seg_lt_of_lt hid)] at hidx'
    rw [List.getElem?_replicate, if_pos hidx', h.unmade id' hid' (hseg' ▸ hnone)]

/-- The route that `user_route_ptr` points to, in a segment that is there. -/
theorem Holds.userRoutePtr (h : b.Holds r) (hid : id.toNat < 2 ^ 27) (count : UInt32) :
    ∃ b' us, b.userRoutePtr count id = some (b', r.get count id) ∧
      b'.Holds (Function.update r id (r.get count id)) ∧
      b'.uBuf[(userRouteSeg id).toNat]? = some (some us) := by
  have hin : (userRouteSeg id).toNat < b.uBuf.length := h.length.symm ▸ seg_lt_of_lt hid
  obtain ⟨us', hinit, hput⟩ := h.initUserRoute hid count
  have hthere : (b.uBuf.set (userRouteSeg id).toNat (some us'))[(userRouteSeg id).toNat]? =
      some (some us') := List.getElem?_set_self hin
  cases hseg : b.uBuf[(userRouteSeg id).toNat] with
  | some us =>
    have hus : b.uBuf[(userRouteSeg id).toNat]? = some (some us) :=
      (List.getElem?_eq_getElem hin).trans (congrArg some hseg)
    have hroute := h.route id hid us hus
    by_cases hmade : (r id).isInit = true
    · rw [RouteTab.get, if_pos hmade, Function.update_eq_self]
      refine ⟨b, us, ?_, h, hus⟩
      simp only [RouteBuf.userRoutePtr, hus, hroute, Option.bind_eq_bind, Option.bind_some]
      exact if_pos hmade
    · rw [RouteTab.get, if_neg hmade]
      refine ⟨_, us', ?_, hput, hthere⟩
      simp only [RouteBuf.userRoutePtr, hus, hroute, Option.bind_eq_bind, Option.bind_some]
      exact (if_neg hmade).trans hinit
  | none =>
    have hnone : b.uBuf[(userRouteSeg id).toNat]? = some none :=
      (List.getElem?_eq_getElem hin).trans (congrArg some hseg)
    have hmade : ¬ (r id).isInit = true := by
      rw [h.unmade id hid hnone]
      decide
    rw [RouteTab.get, if_neg hmade]
    refine ⟨_, us', ?_, hput, hthere⟩
    simp only [RouteBuf.userRoutePtr, hnone, Option.bind_eq_bind, Option.bind_some]
    exact hinit

theorem Holds.store (h : b.Holds r) (hid : id.toNat < 2 ^ 27) {us : List TportRoute}
    (hus : b.uBuf[(userRouteSeg id).toNat]? = some (some us)) (u : TportRoute) :
    (b.store id u).Holds (Function.update r id u) := by
  have hset : b.store id u =
      ⟨b.uBuf.set (userRouteSeg id).toNat (some (us.set (userRouteIdx id).toNat u))⟩ := by
    rw [RouteBuf.store, List.modify_eq_set, hus]
    rfl
  rw [hset]
  refine h.put hid (h.seg _ us hus) (fun id' hid' hseg => ?_) u
  exact h.route id' hid' us (hseg ▸ hus)

/-- A reset stays in the segments. -/
theorem Holds.userRouteReset (h : b.Holds r) :
    ∃ b', b.userRouteReset = some b' ∧
      b'.Holds fun id => if (r id).isInit then (r id).reset else r id := by
  have hloop : (List.range b.uBuf.length).foldlM
      (fun segs i => do
        match ← segs[i]? with
        | none => return segs
        | some us => return segs.set i (some (← resetSeg i us))) b.uBuf =
      some (b.uBuf.map (Option.map (List.map TportRoute.cleared))) := by
    apply foldlM_range_set
    intro segs i seg hseg hcur
    cases seg with
    | none =>
      obtain ⟨hi, heq⟩ := List.getElem?_eq_some_iff.1 hcur
      simp only [hcur, Option.bind_eq_bind, Option.bind_some, Option.map_none]
      rw [← heq, List.set_getElem_self]
      rfl
    | some us =>
      have hi : i < 24 := by
        rw [← h.length]
        exact (List.getElem?_eq_some_iff.1 hseg).1
      simp only [hcur, resetSeg_eq hi (h.seg i us hseg), Option.bind_eq_bind, Option.bind_some]
      rfl
  refine ⟨⟨b.uBuf.map (Option.map (List.map TportRoute.cleared))⟩, ?_, ?_, ?_, ?_, ?_⟩
  · rw [h.length] at hloop
    rw [RouteBuf.userRouteReset, hloop]
    rfl
  · rw [List.length_map, h.length]
  · intro i us hus
    rw [List.getElem?_map, Option.map_eq_some_iff] at hus
    obtain ⟨seg, hseg, hmap⟩ := hus
    obtain ⟨us', rfl, rfl⟩ := Option.map_eq_some_iff.1 hmap
    rw [List.length_map, h.seg i us' hseg]
  · intro id hid us hus
    rw [List.getElem?_map, Option.map_eq_some_iff] at hus
    obtain ⟨seg, hseg, hmap⟩ := hus
    obtain ⟨us', rfl, rfl⟩ := Option.map_eq_some_iff.1 hmap
    rw [List.getElem?_map, h.route id hid us' hseg]
    rfl
  · intro id hid hnone
    rw [List.getElem?_map, Option.map_eq_some_iff] at hnone
    obtain ⟨seg, hseg, hmap⟩ := hnone
    obtain rfl := Option.map_eq_none_iff.1 hmap
    show TportRoute.cleared (r id) = _
    rw [h.unmade id hid hseg]
    rfl

/-! ## A run -/

theorem Holds.use (h : b.Holds r) {e : RouteUse} (he : e.InRange) :
    ∃ b', b.use e = some (b', (r.use e).2) ∧ b'.Holds (r.use e).1 := by
  cases e with
  | route count id write =>
    obtain ⟨b', us, hptr, hholds, hus⟩ := h.userRoutePtr he count
    refine ⟨b'.store id (write (r.get count id)), ?_, ?_⟩
    · rw [RouteBuf.use, hptr]
      rfl
    · have hstore := hholds.store he hus (write (r.get count id))
      rwa [Function.update_idem] at hstore
  | reset =>
    obtain ⟨b', hreset, hholds⟩ := h.userRouteReset
    refine ⟨b', ?_, hholds⟩
    rw [RouteBuf.use, hreset]
    rfl

theorem Holds.uses (h : b.Holds r) {es : List RouteUse} (hes : ∀ e ∈ es, e.InRange) :
    b.uses es = some (r.uses es) := by
  induction es generalizing b r with
  | nil => rfl
  | cons e es ih =>
    obtain ⟨b', huse, hholds⟩ := h.use (hes e List.mem_cons_self)
    have hrest := ih hholds fun e' he' => hes e' (List.mem_cons_of_mem e he')
    rw [RouteBuf.uses, huse, RouteTab.uses]
    simp only [Option.bind_eq_bind, Option.bind_some, hrest]
    rfl

/-- **No two transports share a route**, and no access leaves the memory: each transport
has its own place, in a segment that is there, and a run gives the routes that it would
give if each had a variable of its own. -/
theorem user_routes_apart {es : List RouteUse} (hes : ∀ e ∈ es, e.InRange) :
    (∀ id : UInt32, id.toNat < 2 ^ 27 → (userRouteSeg id).toNat < 24 ∧
      (userRouteIdx id).toNat < (USER_ROUTE_BASE <<< userRouteSeg id).toNat) ∧
      (∀ id id' : UInt32, userRouteSeg id = userRouteSeg id' →
        userRouteIdx id = userRouteIdx id' → id = id') ∧
      RouteBuf.new.uses es = some (RouteTab.new.uses es) := by
  refine ⟨fun id hid => ?_, fun id id' => id_inj, holds_new.uses hes⟩
  have hseg := seg_lt_of_lt hid
  refine ⟨hseg, ?_⟩
  rw [toNat_base_shift hseg]
  exact idx_lt id

/-- The first transport and the last one. -/
def lastUses : List RouteUse :=
  [.route 134217728 0 fun u => u, .route 134217728 134217727 fun u => { u with mcastFd := 7 },
    .reset, .route 134217728 134217727 fun u => u]

theorem inRange_lastUses : ∀ e ∈ lastUses, e.InRange := by
  intro e he
  simp only [lastUses, List.mem_cons, List.not_mem_nil, or_false] at he
  rcases he with rfl | rfl | rfl | rfl
  · exact (by decide : (0 : UInt32).toNat < 2 ^ 27)
  · exact (by decide : (134217727 : UInt32).toNat < 2 ^ 27)
  · trivial
  · exact (by decide : (134217727 : UInt32).toNat < 2 ^ 27)

theorem user_routes_apart_last : RouteBuf.new.uses lastUses = some (RouteTab.new.uses lastUses) :=
  (user_routes_apart inRange_lastUses).2.2

end RouteBuf

end Raims
