import Raims.Lib.Run
import Raims.Lib.SLinkList
import Raims.User.Signatures

/-!
# The lists of users and of revocations (`add_user`, `revoke_user`, `remove_user`)

The users of a service are linked in memory, and so are the revocations, each with a
pointer to its user and one back. A user is added after the tail. `remove_user` unlinks
by hand and does not look at the tail: when it takes the last element out, the tail is an
element that was freed, and what is added next is linked to that.
-/

namespace Raims

def MAX_USER_LEN : ℕ := 128
def MAX_SERVICE_LEN : ℕ := 128

/-- `SLinkList::sort` by `cmp_user_create` of what the elements are of. -/
structure AddrSort where
  sort : (ℕ → UserBuf) → List ℕ → List ℕ
  perm : ∀ user l, (sort user l).Perm l
  sorted : ∀ user l, (sort user l).Pairwise fun x y => cmpUserCreate (user x) (user y) ≠ .gt

/-- By insertion. -/
def AddrSort.insertion : AddrSort where
  sort user := List.insertionSort fun x y => UserElem.Le (.new (user x)) (.new (user y))
  perm _ := List.perm_insertionSort _
  sorted := by
    intro user l
    have htrans : IsTrans ℕ fun x y => UserElem.Le (.new (user x)) (.new (user y)) :=
      ⟨fun x _ _ hxy hyz => IsTrans.trans (UserElem.new (user x)) _ _ hxy hyz⟩
    have htotal : Std.Total fun x y => UserElem.Le (.new (user x)) (.new (user y)) :=
      ⟨fun x y => Std.Total.total (UserElem.new (user x)) (UserElem.new (user y))⟩
    refine (List.pairwise_insertionSort _ l).imp ?_
    intro x y hxy
    exact Ordering.isLE_iff_ne_gt.mp hxy

/-- The lists of a `ServiceBuf`, and the fields of its `UserElem`s and `RevokeElem`s by
their addresses. An address is not used again. -/
structure ServiceLists where
  service : Str
  users : SLinkList ℕ
  revoke : SLinkList ℕ
  /-- `UserElem::next` -/
  userNext : ℕ → Option ℕ
  /-- `UserElem::revoke` -/
  userRevoke : ℕ → Option ℕ
  /-- `UserElem::user` -/
  user : ℕ → UserBuf
  /-- `RevokeElem::next` -/
  revokeNext : ℕ → Option ℕ
  /-- `RevokeElem::user` -/
  revokeUser : ℕ → ℕ
  /-- what `malloc` gives next -/
  brk : ℕ

namespace ServiceLists

def new (service : Str) : ServiceLists :=
  ⟨service, .empty, .empty, fun _ => none, fun _ => none,
    fun _ => ⟨[], [], [], [], [], none, none⟩, fun _ => none, fun _ => 0, 0⟩

variable (s : ServiceLists)

/-- `users.push_tl( new UserElem( u ) )` -/
def pushUser (u : UserBuf) : ServiceLists :=
  let m := SLinkList.pushTl (s.userNext, s.users) s.brk
  { s with
    userNext := m.1
    users := m.2
    user := Function.update s.user s.brk u
    userRevoke := Function.update s.userRevoke s.brk none
    brk := s.brk + 1 }

/-- `revoke.push_tl( new RevokeElem( u ) )` -/
def pushRevoke (u : ℕ) : ServiceLists :=
  let m := SLinkList.pushTl (s.revokeNext, s.revoke) s.brk
  { s with
    revokeNext := m.1
    revoke := m.2
    revokeUser := Function.update s.revokeUser s.brk u
    userRevoke := Function.update s.userRevoke u (some s.brk)
    brk := s.brk + 1 }

/-- What the functions `add_user` have in common. -/
def add (u : UserBuf) (revoked : Bool) : ServiceLists :=
  let s := s.pushUser u
  if revoked then
    match s.users.tl with
    | some t => s.pushRevoke t
    | none => s
  else s

/-- `add_user( const UserBuf & )`, and that of a `ConfigTree::User`. -/
def addUser (u : UserBuf) : ServiceLists := s.add u (u.revoke.length ≠ 0)

/-- `add_user( const UserElem & )` -/
def addElem (u : UserElem) : ServiceLists := s.add u.user u.revoke.isSome

/-- `UserBuf( user, user_len, service, service_len )` -/
def nameBuf (name : Str) : UserBuf :=
  ⟨name.take MAX_USER_LEN, s.service.take MAX_SERVICE_LEN, [], [], [], none, none⟩

/-- `add_user( const char *, size_t )` -/
def addName (name : Str) : ServiceLists := s.add (s.nameBuf name) false

/-- `cmp_bytes( u->user.user, user ) == 0` -/
def named (name : Str) (u : ℕ) : Bool := decide (cmpBytes (s.user u).user name = .eq)

/-- The body of the loop of `revoke_user`. -/
def revokeOne (name now : Str) (r : ServiceLists × ℕ) (u : ℕ) : ServiceLists × ℕ :=
  if r.1.named name u then
    (if r.1.userRevoke u = none then
      { r.1 with user := Function.update r.1.user u { r.1.user u with revoke := now } }.pushRevoke u
    else r.1, r.2 + 1)
  else r

/-- `revoke_user`, with what `timestamp_now` prints. -/
def revokeUsers (name now : Str) : ServiceLists × Bool :=
  let r := SLinkList.forEach s.userNext (revokeOne name now) s.brk s.users.hd (s, 0)
  (r.1, decide (0 < r.2))

/-- The revocation of a user that goes: the field and the count. -/
def unrevoke (r : (ℕ → Option ℕ) × ℕ) (u : ℕ) : (ℕ → Option ℕ) × ℕ :=
  if r.1 u ≠ none then (Function.update r.1 u none, r.2 + 1) else r

/-- The first loop of `remove_user`. -/
def unlinkUsers (name : Str) : SLinkList.Unlinking ℕ ((ℕ → Option ℕ) × ℕ) :=
  SLinkList.unlinkLoop (s.named name) unrevoke (fun _ => false) s.brk s.users.hd
    ⟨s.userNext, s.users.hd, none, .empty, (s.userRevoke, 0)⟩

/-- The second loop of `remove_user`, for `revCount` revocations. -/
def unlinkRevokes (revCount : ℕ) : SLinkList.Unlinking ℕ ℕ :=
  SLinkList.unlinkLoop (fun r => decide (s.userRevoke (s.revokeUser r) = none)) (fun n _ => n - 1)
    (fun n => decide (n = 0)) s.brk s.revoke.hd
    ⟨s.revokeNext, s.revoke.hd, none, .empty, revCount⟩

/-- `remove_user` -/
def removeUser (name : Str) : ServiceLists × Bool :=
  let r := s.unlinkUsers name
  let s :=
    { s with userNext := r.next, users := { s.users with hd := r.hd }, userRevoke := r.acc.1 }
  if r.tmp.hd = none then (s, false)
  else if 0 < r.acc.2 then
    let r := s.unlinkRevokes r.acc.2
    ({ s with revokeNext := r.next, revoke := { s.revoke with hd := r.hd } }, true)
  else (s, true)

/-- The elements from the first on. -/
def toList (next : ℕ → Option ℕ) (hd : Option ℕ) : List ℕ :=
  SLinkList.forEach next (fun l a => l ++ [a]) s.brk hd []

/-- `users.sort()` and `revoke.sort()` -/
def sortLists (kv : AddrSort) : ServiceLists :=
  let users := (kv.sort s.user (s.toList s.userNext s.users.hd)).foldl SLinkList.pushTl
    (s.userNext, .empty)
  let revoke := (kv.sort (fun r => s.user (s.revokeUser r))
    (s.toList s.revokeNext s.revoke.hd)).foldl SLinkList.pushTl (s.revokeNext, .empty)
  { s with userNext := users.1, users := users.2, revokeNext := revoke.1, revoke := revoke.2 }

/-- The keys that are missing are made. -/
def genKey (fresh : UserBuf → Str × ℕ) (pwd : Str) (user : ℕ → UserBuf) (u : ℕ) : ℕ → UserBuf :=
  if (user u).pub.isNone then
    Function.update user u ((user u).genKey (fresh (user u)).1 (fresh (user u)).2 pwd)
  else user

/-- `sign_users`, but for the signatures; `opens` when `get_dsa` gave the keys of the
service. -/
def signUsers (kv : AddrSort) (opens : Bool) (fresh : UserBuf → Str × ℕ) (pwd : Str) :
    ServiceLists :=
  if opens then
    let s := s.sortLists kv
    { s with user := SLinkList.forEach s.userNext (genKey fresh pwd) s.brk s.users.hd s.user }
  else s

end ServiceLists

/-! ## Who is on the lists -/

/-- A user that was added: its element, its name, and if it was revoked. -/
structure RosterUser where
  elem : ℕ
  name : Str
  revoked : Bool
deriving DecidableEq

def RosterUser.revoke (u : RosterUser) : RosterUser := { u with revoked := true }

/-- The lists, and the users that were added and not removed since, which are not in the
source. -/
structure ServiceRun where
  lists : ServiceLists
  roster : List RosterUser

namespace ServiceRun

inductive Event where
  | addUser (u : UserBuf)
  | addElem (u : UserElem)
  | addName (name : Str)
  | revokeUser (name now : Str)
  | removeUser (name : Str)
  | signUsers (opens : Bool) (fresh : UserBuf → Str × ℕ) (pwd : Str)

def start (service : Str) : ServiceRun := ⟨.new service, []⟩

/-- A user is added. -/
def added (s : ServiceRun) (u : UserBuf) (revoked : Bool) : List RosterUser :=
  s.roster ++ [⟨s.lists.brk, u.user, revoked⟩]

def step (kv : AddrSort) (s : ServiceRun) : Event → ServiceRun
  | .addUser u => ⟨s.lists.addUser u, s.added u (u.revoke.length ≠ 0)⟩
  | .addElem u => ⟨s.lists.addElem u, s.added u.user u.revoke.isSome⟩
  | .addName name => ⟨s.lists.addName name, s.added (s.lists.nameBuf name) false⟩
  | .revokeUser name now =>
    ⟨(s.lists.revokeUsers name now).1,
      s.roster.map fun u => if u.name = name then u.revoke else u⟩
  | .removeUser name => ⟨(s.lists.removeUser name).1, s.roster.filter fun u => u.name ≠ name⟩
  | .signUsers opens fresh pwd => ⟨s.lists.signUsers kv opens fresh pwd, s.roster⟩

/-- The lists hold the users that were added and not removed, and a revocation for each
that is revoked, with their last elements at the tails. -/
def Linked (s : ServiceRun) : Prop :=
  ∃ l m, SLinkList.Holds s.lists.userNext s.lists.users l ∧
    SLinkList.Holds s.lists.revokeNext s.lists.revoke m ∧
    (l.map fun u => (u, (s.lists.user u).user)).Perm (s.roster.map fun u => (u.elem, u.name)) ∧
    (m.map s.lists.revokeUser).Perm ((s.roster.filter RosterUser.revoked).map RosterUser.elem)

/-- No user is removed whose element, or that of its revocation, is the last one. -/
def TailsStay (s : ServiceRun) : Event → Prop
  | .removeUser name =>
    (∀ u ∈ s.lists.users.tl, (s.lists.user u).user ≠ name) ∧
      ∀ r ∈ s.lists.revoke.tl, (s.lists.user (s.lists.revokeUser r)).user ≠ name
  | _ => True

end ServiceRun

/-! ## Elements that are linked -/

namespace ServiceLists

variable {s : ServiceLists} {l m : List ℕ} {u : ℕ} {name : Str}

/-- The lists hold `l` and `m`, and a revocation and its user know each other. -/
structure Links (s : ServiceLists) (l m : List ℕ) : Prop where
  users : SLinkList.Holds s.userNext s.users l
  revoke : SLinkList.Holds s.revokeNext s.revoke m
  back : ∀ r ∈ m, s.revokeUser r ∈ l ∧ s.userRevoke (s.revokeUser r) = some r
  forth : ∀ u ∈ l, ∀ r ∈ s.userRevoke u, r ∈ m ∧ s.revokeUser r = u
  userLt : ∀ u ∈ l, u < s.brk
  revokeLt : ∀ r ∈ m, r < s.brk

/-- An element of the list of users, as one that was added. -/
def entry (s : ServiceLists) (u : ℕ) : RosterUser :=
  ⟨u, (s.user u).user, (s.userRevoke u).isSome⟩

theorem length_le_brk {brk : ℕ} (hnodup : l.Nodup) (hlt : ∀ a ∈ l, a < brk) : l.length ≤ brk := by
  have hsub : l ⊆ List.range brk := fun a ha => List.mem_range.2 (hlt a ha)
  have hle := (List.subperm_of_subset hnodup hsub).length_le
  rwa [List.length_range] at hle

theorem named_eq_true : s.named name u = true ↔ (s.user u).user = name := by
  rw [named, decide_eq_true_eq]
  constructor
  · exact ServiceBuf.cmpBytes_eq
  · rintro rfl
    rw [ServiceBuf.cmpBytes_compare]
    exact Std.ReflOrd.compare_self

/-- There is one revocation for each user that is revoked. -/
theorem Links.revoked_perm (h : s.Links l m) :
    (m.map s.revokeUser).Perm (l.filter fun u => (s.userRevoke u).isSome) := by
  have hinj : ∀ r ∈ m, ∀ r' ∈ m, s.revokeUser r = s.revokeUser r' → r = r' := by
    intro r hr r' hr' heq
    have hsome := (h.back r hr).2
    rw [heq, (h.back r' hr').2] at hsome
    exact (Option.some.inj hsome).symm
  refine (List.perm_ext_iff_of_nodup (List.Nodup.map_on hinj h.revoke.nodup)
    (h.users.nodup.filter _)).2 fun u => ?_
  rw [List.mem_map, List.mem_filter]
  constructor
  · rintro ⟨r, hr, rfl⟩
    obtain ⟨hmem, hsome⟩ := h.back r hr
    refine ⟨hmem, ?_⟩
    rw [hsome]
    rfl
  · rintro ⟨hu, hsome⟩
    obtain ⟨r, hr⟩ := Option.isSome_iff_exists.1 hsome
    exact ⟨r, h.forth u hu r hr⟩

/-! ### Adding -/

theorem Links.pushUser (h : s.Links l m) (u : UserBuf) :
    (s.pushUser u).Links (l ++ [s.brk]) m := by
  have hnew : s.brk ∉ l := fun hmem => Nat.lt_irrefl _ (h.userLt _ hmem)
  have hold : ∀ a ∈ l, Function.update s.userRevoke s.brk none a = s.userRevoke a := by
    intro a ha
    exact Function.update_of_ne (fun heq : a = s.brk => hnew (heq ▸ ha)) _ _
  refine ⟨SLinkList.Holds.pushTl (m := (s.userNext, s.users)) h.users hnew, h.revoke,
    fun r hr => ?_, fun a ha r hr => ?_, fun a ha => ?_, fun r hr => ?_⟩
  · obtain ⟨hmem, hsome⟩ := h.back r hr
    exact ⟨List.mem_append_left _ hmem, (hold _ hmem).trans hsome⟩
  · rcases List.mem_append.1 ha with ha | ha
    · exact h.forth a ha r ((hold a ha).symm.trans hr)
    · obtain rfl := List.mem_singleton.1 ha
      have hnone : Function.update s.userRevoke s.brk none s.brk = none :=
        Function.update_self _ _ _
      exact absurd (hnone.symm.trans hr) (Option.some_ne_none r).symm
  · rcases List.mem_append.1 ha with ha | ha
    · exact Nat.lt_succ_of_lt (h.userLt a ha)
    · obtain rfl := List.mem_singleton.1 ha
      exact Nat.lt_succ_self _
  · exact Nat.lt_succ_of_lt (h.revokeLt r hr)

theorem Links.pushRevoke (h : s.Links l m) (hu : u ∈ l) (hnone : s.userRevoke u = none) :
    (s.pushRevoke u).Links l (m ++ [s.brk]) := by
  have hnew : s.brk ∉ m := fun hmem => Nat.lt_irrefl _ (h.revokeLt _ hmem)
  have hold : ∀ r ∈ m, Function.update s.revokeUser s.brk u r = s.revokeUser r := by
    intro r hr
    exact Function.update_of_ne (fun heq : r = s.brk => hnew (heq ▸ hr)) _ _
  have hother : ∀ r ∈ m, s.revokeUser r ≠ u := by
    intro r hr heq
    have hsome := (h.back r hr).2
    rw [heq, hnone] at hsome
    cases hsome
  refine ⟨h.users, SLinkList.Holds.pushTl (m := (s.revokeNext, s.revoke)) h.revoke hnew,
    fun r hr => ?_, fun a ha r hr => ?_, fun a ha => Nat.lt_succ_of_lt (h.userLt a ha),
    fun r hr => ?_⟩
  · show Function.update s.revokeUser s.brk u r ∈ l ∧
      Function.update s.userRevoke u (some s.brk) (Function.update s.revokeUser s.brk u r) = some r
    rcases List.mem_append.1 hr with hr | hr
    · rw [hold r hr, Function.update_of_ne (hother r hr)]
      exact h.back r hr
    · obtain rfl := List.mem_singleton.1 hr
      rw [Function.update_self, Function.update_self]
      exact ⟨hu, rfl⟩
  · have hr : Function.update s.userRevoke u (some s.brk) a = some r := hr
    show r ∈ m ++ [s.brk] ∧ Function.update s.revokeUser s.brk u r = a
    by_cases hau : a = u
    · subst hau
      rw [Function.update_self] at hr
      obtain rfl := Option.some.inj hr
      exact ⟨List.mem_append_right m (List.mem_singleton_self _), Function.update_self _ _ _⟩
    · rw [Function.update_of_ne hau] at hr
      obtain ⟨hmem, hback⟩ := h.forth a ha r hr
      rw [hold r hmem]
      exact ⟨List.mem_append_left _ hmem, hback⟩
  · rcases List.mem_append.1 hr with hr | hr
    · exact Nat.lt_succ_of_lt (h.revokeLt r hr)
    · obtain rfl := List.mem_singleton.1 hr
      exact Nat.lt_succ_self _

theorem entry_pushUser_of_ne {a : ℕ} (ha : a ≠ s.brk) (u : UserBuf) :
    (s.pushUser u).entry a = s.entry a := by
  have huser : Function.update s.user s.brk u a = s.user a := Function.update_of_ne ha _ _
  have hrevoke : Function.update s.userRevoke s.brk none a = s.userRevoke a :=
    Function.update_of_ne ha _ _
  show (⟨a, (Function.update s.user s.brk u a).user,
    (Function.update s.userRevoke s.brk none a).isSome⟩ : RosterUser) = _
  rw [huser, hrevoke]
  rfl

theorem entry_pushUser_self (s : ServiceLists) (u : UserBuf) :
    (s.pushUser u).entry s.brk = ⟨s.brk, u.user, false⟩ := by
  show (⟨s.brk, (Function.update s.user s.brk u s.brk).user,
    (Function.update s.userRevoke s.brk none s.brk).isSome⟩ : RosterUser) = _
  rw [Function.update_self, Function.update_self]
  rfl

theorem entry_pushRevoke (s : ServiceLists) (u a : ℕ) :
    (s.pushRevoke u).entry a =
      if a = u then (s.entry a).revoke else s.entry a := by
  show (⟨a, (s.user a).user,
    (Function.update s.userRevoke u (some s.brk) a).isSome⟩ : RosterUser) = _
  split
  · next hau =>
      rw [hau, Function.update_self]
      rfl
  · next hau =>
      rw [Function.update_of_ne hau]
      rfl

/-- A user that is added is behind the others, with a revocation if it is revoked. -/
theorem Links.add (h : s.Links l m) (u : UserBuf) (revoked : Bool) :
    ∃ m', (s.add u revoked).Links (l ++ [s.brk]) m' ∧
      (l ++ [s.brk]).map (s.add u revoked).entry = l.map s.entry ++ [⟨s.brk, u.user, revoked⟩] := by
  have hpush := h.pushUser u
  have hold : ∀ a ∈ l, a ≠ s.brk := fun a ha => Nat.ne_of_lt (h.userLt a ha)
  rw [ServiceLists.add]
  cases revoked with
  | false =>
    refine ⟨m, hpush, ?_⟩
    rw [List.map_append]
    congr 1
    · exact List.map_congr_left fun a ha => entry_pushUser_of_ne (hold a ha) u
    · exact congrArg (fun e => [e]) (entry_pushUser_self s u)
  | true =>
    have htl : (s.pushUser u).users.tl = some s.brk :=
      hpush.users.tail.trans List.getLast?_concat
    have hnone : (s.pushUser u).userRevoke s.brk = none := Function.update_self _ _ _
    have hmem : s.brk ∈ l ++ [s.brk] := List.mem_append_right l (List.mem_singleton_self _)
    rw [if_pos rfl, htl]
    refine ⟨_, hpush.pushRevoke hmem hnone, ?_⟩
    rw [List.map_append]
    congr 1
    · refine List.map_congr_left fun a ha => ?_
      rw [entry_pushRevoke, if_neg (hold a ha), entry_pushUser_of_ne (hold a ha)]
    · rw [List.map_singleton, entry_pushRevoke, if_pos rfl, entry_pushUser_self]
      rfl

/-! ### Revoking -/

theorem Links.setUser (h : s.Links l m) (user : ℕ → UserBuf) :
    Links { s with user := user } l m :=
  ⟨h.users, h.revoke, h.back, h.forth, h.userLt, h.revokeLt⟩

theorem entry_setUser {user : ℕ → UserBuf} {a : ℕ} (h : (user a).user = (s.user a).user) :
    ServiceLists.entry { s with user := user } a = s.entry a := by
  show (⟨a, (user a).user, (s.userRevoke a).isSome⟩ : RosterUser) = _
  rw [h]
  rfl

/-- What one turn of the loop does. -/
theorem Links.revokeOne (h : s.Links l m) (hu : u ∈ l) (name now : Str) (n : ℕ) :
    ∃ m', (ServiceLists.revokeOne name now (s, n) u).1.Links l m' ∧
      ∀ a, (ServiceLists.revokeOne name now (s, n) u).1.entry a =
        if a = u ∧ (s.user a).user = name then (s.entry a).revoke
        else s.entry a := by
  rw [ServiceLists.revokeOne]
  dsimp only
  by_cases hnamed : s.named name u = true
  · rw [if_pos hnamed]
    have hname := named_eq_true.1 hnamed
    by_cases hnone : s.userRevoke u = none
    · rw [if_pos hnone]
      refine ⟨_, (h.setUser _).pushRevoke hu hnone, fun a => ?_⟩
      rw [entry_pushRevoke, entry_setUser]
      · by_cases hau : a = u
        · rw [if_pos hau, if_pos ⟨hau, hau ▸ hname⟩]
        · rw [if_neg hau, if_neg fun h => hau h.1]
      · by_cases hau : a = u
        · rw [hau, Function.update_self]
        · rw [Function.update_of_ne hau]
    · rw [if_neg hnone]
      refine ⟨m, h, fun a => ?_⟩
      split
      · next hau =>
          rw [entry, hau.1, Option.isSome_iff_ne_none.2 hnone]
          rfl
      · rfl
  · rw [if_neg hnamed]
    refine ⟨m, h, fun a => ?_⟩
    rw [if_neg]
    rintro ⟨rfl, hname⟩
    exact hnamed (named_eq_true.2 hname)

theorem Links.foldl_revokeOne (h : s.Links l m) {us : List ℕ} (hus : us ⊆ l) (name now : Str)
    (n : ℕ) :
    ∃ m', (us.foldl (ServiceLists.revokeOne name now) (s, n)).1.Links l m' ∧
      ∀ a, (us.foldl (ServiceLists.revokeOne name now) (s, n)).1.entry a =
        if a ∈ us ∧ (s.user a).user = name then (s.entry a).revoke
        else s.entry a := by
  induction us generalizing s m n with
  | nil =>
    refine ⟨m, h, fun a => ?_⟩
    rw [if_neg fun h => List.not_mem_nil h.1]
    rfl
  | cons u us ih =>
    obtain ⟨m₁, h₁, hentry⟩ := h.revokeOne (hus List.mem_cons_self) name now n
    obtain ⟨m', h', hentry'⟩ :=
      ih h₁ (fun a ha => hus (List.mem_cons_of_mem u ha))
        (ServiceLists.revokeOne name now (s, n) u).2
    refine ⟨m', h', fun a => (hentry' a).trans ?_⟩
    have hname : ((ServiceLists.revokeOne name now (s, n) u).1.user a).user =
        (s.user a).user := by
      have heq := congrArg RosterUser.name (hentry a)
      rw [apply_ite RosterUser.name] at heq
      exact heq.trans (ite_self _)
    rw [hname, hentry]
    by_cases hn : (s.user a).user = name
    · simp only [and_iff_left hn, List.mem_cons]
      by_cases hau : a = u
      · rw [if_pos hau, if_pos (Or.inl hau)]
        exact ite_self _
      · rw [if_neg hau]
        simp only [or_iff_right hau]
    · rw [if_neg fun h => hn h.2, if_neg fun h => hn h.2, if_neg fun h => hn h.2]

/-- The users of a name are revoked, each once. -/
theorem Links.revokeUsers (h : s.Links l m) (name now : Str) :
    ∃ m', (s.revokeUsers name now).1.Links l m' ∧
      l.map (s.revokeUsers name now).1.entry =
        (l.map s.entry).map fun e => if e.name = name then e.revoke else e := by
  have hloop : SLinkList.forEach s.userNext (ServiceLists.revokeOne name now) s.brk s.users.hd
      (s, 0) = l.foldl (ServiceLists.revokeOne name now) (s, 0) :=
    SLinkList.forEach_eq_foldl h.users.seg (length_le_brk h.users.nodup h.userLt)
  obtain ⟨m', h', hentry⟩ := h.foldl_revokeOne (List.Subset.refl l) name now 0
  rw [ServiceLists.revokeUsers, hloop]
  refine ⟨m', h', ?_⟩
  rw [List.map_map]
  refine List.map_congr_left fun a ha => (hentry a).trans ?_
  simp only [and_iff_right ha]
  rfl

/-! ### Removing -/

theorem foldl_unrevoke {us : List ℕ} (hnodup : us.Nodup) (f : ℕ → Option ℕ) (n : ℕ) :
    us.foldl unrevoke (f, n) =
      (fun a => if a ∈ us then none else f a, n + us.countP fun u => (f u).isSome) := by
  induction us generalizing f n with
  | nil => simp
  | cons u us ih =>
    obtain ⟨hu, hnodup⟩ := List.nodup_cons.1 hnodup
    have hcount : ∀ v, us.countP (fun a => (Function.update f u v a).isSome) =
        us.countP fun a => (f a).isSome := by
      intro v
      refine List.countP_congr fun a ha => ?_
      rw [Function.update_of_ne fun heq : a = u => hu (heq ▸ ha)]
    rw [List.foldl_cons, unrevoke]
    dsimp only
    split
    · next hsome =>
        have hpos : ((u :: us).countP fun u => (f u).isSome) =
            (us.countP fun u => (f u).isSome) + 1 :=
          List.countP_cons_of_pos (Option.isSome_iff_ne_none.2 hsome)
        rw [ih hnodup, hcount, hpos]
        refine Prod.ext (funext fun a => ?_) (by omega)
        by_cases hau : a = u
        · subst hau
          dsimp only
          rw [if_neg hu, Function.update_self, if_pos List.mem_cons_self]
        · dsimp only
          rw [Function.update_of_ne hau]
          simp only [List.mem_cons, or_iff_right hau]
    · next hnone =>
        have hf : f u = none := not_not.1 hnone
        have hneg : ((u :: us).countP fun u => (f u).isSome) =
            us.countP fun u => (f u).isSome := by
          refine List.countP_cons_of_neg ?_
          rw [hf]
          exact Bool.false_ne_true
        rw [ih hnodup, hneg]
        refine Prod.ext (funext fun a => ?_) rfl
        by_cases hau : a = u
        · subst hau
          dsimp only
          rw [if_neg hu, hf, if_pos List.mem_cons_self]
        · simp only [List.mem_cons, or_iff_right hau]

/-- `s'` is `s` with the users `keep` and the revocations `keepR` alone; the tails are as they
were. -/
structure Without (s s' : ServiceLists) (keep keepR : List ℕ) : Prop where
  users : SLinkList.Seg s'.userNext s'.users.hd keep none
  usersTl : s'.users.tl = s.users.tl
  revoke : SLinkList.Seg s'.revokeNext s'.revoke.hd keepR none
  revokeTl : s'.revoke.tl = s.revoke.tl
  user : s'.user = s.user
  revokeUser : s'.revokeUser = s.revokeUser
  userRevoke : ∀ u ∈ keep, s'.userRevoke u = s.userRevoke u
  brk : s'.brk = s.brk

/-- There are as many revocations of the users of a name as of these are revoked. -/
theorem Links.countP_named (h : s.Links l m) (name : Str) :
    (m.countP fun r => s.named name (s.revokeUser r)) =
      (l.filter (s.named name)).countP fun u => (s.userRevoke u).isSome := by
  calc m.countP (fun r => s.named name (s.revokeUser r))
      = (m.map s.revokeUser).countP (s.named name) := by rw [List.countP_map]; rfl
    _ = (l.filter fun u => (s.userRevoke u).isSome).countP (s.named name) :=
        h.revoked_perm.countP_eq _
    _ = (l.filter (s.named name)).countP fun u => (s.userRevoke u).isSome := by
        rw [List.countP_filter, List.countP_filter]
        exact List.countP_congr fun u _ => by rw [Bool.and_comm]

/-- A revocation is of a user that goes if its user has none left. -/
theorem Links.gone_iff (h : s.Links l m) {r : ℕ} (hr : r ∈ m) :
    (if s.revokeUser r ∈ l.filter (s.named name) then none
      else s.userRevoke (s.revokeUser r)) = none ↔ s.named name (s.revokeUser r) = true := by
  obtain ⟨hmem, hsome⟩ := h.back r hr
  constructor
  · intro hnone
    by_contra hn
    rw [if_neg fun h => hn (List.mem_filter.1 h).2, hsome] at hnone
    cases hnone
  · intro hn
    rw [if_pos (List.mem_filter.2 ⟨hmem, hn⟩)]

/-- The users of a name, and their revocations, go. -/
theorem Links.removeUser (h : s.Links l m) (name : Str) :
    s.Without (s.removeUser name).1 (l.filter fun u => !s.named name u)
      (m.filter fun r => !s.named name (s.revokeUser r)) := by
  have hfuel := length_le_brk h.users.nodup h.userLt
  have hfuelR := length_le_brk h.revoke.nodup h.revokeLt
  obtain ⟨hseg, -, htmp, hacc⟩ := SLinkList.unlinkLoop_holds (s.named name) unrevoke
    (fun _ => false) (s.userRevoke, 0) h.users hfuel
  rw [SLinkList.unlinked_all] at hseg htmp hacc
  rw [foldl_unrevoke (h.users.nodup.filter _), Nat.zero_add] at hacc
  dsimp only at hseg htmp hacc
  rw [ServiceLists.removeUser, unlinkUsers]
  generalize SLinkList.unlinkLoop (s.named name) unrevoke (fun _ => false) s.brk s.users.hd
    ⟨s.userNext, s.users.hd, none, .empty, (s.userRevoke, 0)⟩ = r at hseg htmp hacc
  have hkeep : ∀ u ∈ l.filter fun u => !s.named name u, r.acc.1 u = s.userRevoke u := by
    intro u hu
    rw [hacc]
    refine if_neg fun hgone => ?_
    have hnot := (List.mem_filter.1 hu).2
    rw [(List.mem_filter.1 hgone).2] at hnot
    exact absurd hnot Bool.false_ne_true
  have hcount : (m.countP fun r => s.named name (s.revokeUser r)) = r.acc.2 := by
    rw [hacc]
    exact h.countP_named name
  have hnone (hzero : r.acc.2 = 0) : (m.filter fun r => !s.named name (s.revokeUser r)) = m := by
    refine List.filter_eq_self.2 fun a ha => ?_
    rw [Bool.eq_false_iff.2 (List.countP_eq_zero.1 (hcount.trans hzero) a ha)]
    rfl
  dsimp only
  split
  · next htl =>
      -- no user of the name: nothing was counted
      have hgone : l.filter (s.named name) = [] := by
        cases hgone : l.filter (s.named name) with
        | nil => rfl
        | cons a us =>
          rw [hgone] at htmp
          exact absurd (htl.symm.trans htmp.seg.1) (Option.some_ne_none a).symm
      have hzero : r.acc.2 = 0 := by
        rw [hacc, hgone]
        rfl
      refine ⟨hseg, rfl, ?_, rfl, rfl, rfl, hkeep, rfl⟩
      rw [hnone hzero]
      exact h.revoke.seg
  · split
    · next hpos =>
        obtain ⟨hsegR, -, -, -⟩ := SLinkList.unlinkLoop_holds
          (fun a => decide (r.acc.1 (s.revokeUser a) = none)) (fun n _ => n - 1)
          (fun n => decide (n = 0)) r.acc.2 h.revoke hfuelR
        have hhit : ∀ a ∈ m, decide (r.acc.1 (s.revokeUser a) = none) =
            s.named name (s.revokeUser a) := by
          intro a ha
          rw [hacc, Bool.eq_iff_iff, decide_eq_true_eq]
          exact h.gone_iff ha
        have hcountR : (m.countP fun a => decide (r.acc.1 (s.revokeUser a) = none)) = r.acc.2 :=
          (List.countP_congr fun a ha => by rw [hhit a ha]).trans hcount
        rw [SLinkList.unlinked_count hcountR (Nat.ne_of_gt hpos)] at hsegR
        have hfilter : (m.filter fun a => !decide (r.acc.1 (s.revokeUser a) = none)) =
            m.filter fun a => !s.named name (s.revokeUser a) :=
          List.filter_congr fun a ha => by rw [hhit a ha]
        rw [hfilter] at hsegR
        exact ⟨hseg, rfl, hsegR, rfl, rfl, rfl, hkeep, rfl⟩
    · next hzero =>
        refine ⟨hseg, rfl, ?_, rfl, rfl, rfl, hkeep, rfl⟩
        rw [hnone (Nat.eq_zero_of_not_pos hzero)]
        exact h.revoke.seg

theorem getLast?_filter {p : ℕ → Bool} (h : ∀ a ∈ l.getLast?, p a = true) :
    (l.filter p).getLast? = l.getLast? := by
  rcases List.eq_nil_or_concat l with rfl | ⟨l, t, rfl⟩
  · rfl
  · rw [List.concat_eq_append, List.getLast?_concat] at h ⊢
    rw [List.filter_append, List.filter_cons_of_pos (h t rfl)]
    exact List.getLast?_concat

/-- The tails are right if the last elements stay. -/
theorem Links.without (h : s.Links l m) {s' : ServiceLists}
    (h' : s.Without s' (l.filter fun u => !s.named name u)
      (m.filter fun r => !s.named name (s.revokeUser r)))
    (hu : ∀ u ∈ s.users.tl, (s.user u).user ≠ name)
    (hr : ∀ r ∈ s.revoke.tl, (s.user (s.revokeUser r)).user ≠ name) :
    s'.Links (l.filter fun u => !s.named name u)
      (m.filter fun r => !s.named name (s.revokeUser r)) := by
  have hnot : ∀ a, (s.user a).user ≠ name → (!s.named name a) = true := by
    intro a ha
    rw [Bool.eq_false_iff.2 fun hn => ha (named_eq_true.1 hn)]
    rfl
  refine ⟨⟨h'.users, ?_, h.users.nodup.filter _⟩, ⟨h'.revoke, ?_, h.revoke.nodup.filter _⟩, ?_, ?_,
    ?_, ?_⟩
  · rw [h'.usersTl, h.users.tail, getLast?_filter]
    intro a ha
    exact hnot a (hu a (h.users.tail.trans ha))
  · rw [h'.revokeTl, h.revoke.tail, getLast?_filter]
    intro a ha
    exact hnot _ (hr a (h.revoke.tail.trans ha))
  · intro r hr
    obtain ⟨hmem, hstays⟩ := List.mem_filter.1 hr
    obtain ⟨hl, hsome⟩ := h.back r hmem
    have hkept : s.revokeUser r ∈ l.filter fun u => !s.named name u :=
      List.mem_filter.2 ⟨hl, hstays⟩
    rw [h'.revokeUser]
    exact ⟨hkept, (h'.userRevoke _ hkept).trans hsome⟩
  · intro u hu r hr
    obtain ⟨hmem, hstays⟩ := List.mem_filter.1 hu
    rw [h'.userRevoke u hu] at hr
    obtain ⟨hm, hback⟩ := h.forth u hmem r hr
    rw [h'.revokeUser]
    refine ⟨List.mem_filter.2 ⟨hm, ?_⟩, hback⟩
    rw [hback]
    exact hstays
  · intro u hu
    rw [h'.brk]
    exact h.userLt u (List.mem_filter.1 hu).1
  · intro r hr
    rw [h'.brk]
    exact h.revokeLt r (List.mem_filter.1 hr).1

/-- The entries of the users that stay. -/
theorem Without.map_entry {s' : ServiceLists} {keepR : List ℕ}
    (h : s.Without s' (l.filter fun u => !s.named name u) keepR) :
    (l.filter fun u => !s.named name u).map s'.entry =
      (l.map s.entry).filter fun e => e.name ≠ name := by
  have hfilter : ((l.map s.entry).filter fun e => e.name ≠ name) =
      (l.filter fun u => !s.named name u).map s.entry := by
    rw [List.filter_map]
    congr 1
    refine List.filter_congr fun a _ => ?_
    show decide ((s.user a).user ≠ name) = !s.named name a
    rw [Bool.eq_iff_iff, decide_eq_true_eq, Bool.not_eq_true', ← Bool.not_eq_true, named_eq_true]
  rw [hfilter]
  refine List.map_congr_left fun a ha => ?_
  rw [entry, entry, h.user, h.userRevoke a ha]

/-! ### Signing -/

theorem toList_eq {next : ℕ → Option ℕ} {ls : SLinkList ℕ} (h : SLinkList.Holds next ls l)
    (hlt : ∀ a ∈ l, a < s.brk) : s.toList next ls.hd = l := by
  rw [toList, SLinkList.forEach_eq_foldl h.seg (length_le_brk h.nodup hlt)]
  have hrun : ∀ (l' l : List ℕ), l'.foldl (fun l a => l ++ [a]) l = l ++ l' := by
    intro l'
    induction l' with
    | nil => exact fun l => (List.append_nil l).symm
    | cons a l' ih =>
      intro l
      rw [List.foldl_cons, ih, ← List.append_cons]
  exact hrun l []

theorem Links.sortLists (h : s.Links l m) (kv : AddrSort) :
    (s.sortLists kv).Links (kv.sort s.user l) (kv.sort (fun r => s.user (s.revokeUser r)) m) := by
  have hl := kv.perm s.user l
  have hm := kv.perm (fun r => s.user (s.revokeUser r)) m
  have hsort : s.sortLists kv = { s with
      userNext := ((kv.sort s.user l).foldl SLinkList.pushTl (s.userNext, .empty)).1
      users := ((kv.sort s.user l).foldl SLinkList.pushTl (s.userNext, .empty)).2
      revokeNext := ((kv.sort (fun r => s.user (s.revokeUser r)) m).foldl SLinkList.pushTl
        (s.revokeNext, .empty)).1
      revoke := ((kv.sort (fun r => s.user (s.revokeUser r)) m).foldl SLinkList.pushTl
        (s.revokeNext, .empty)).2 } := by
    rw [ServiceLists.sortLists, toList_eq h.users h.userLt, toList_eq h.revoke h.revokeLt]
  rw [hsort]
  refine ⟨SLinkList.holds_foldl_pushTl (hl.nodup_iff.2 h.users.nodup),
    SLinkList.holds_foldl_pushTl (hm.nodup_iff.2 h.revoke.nodup), fun r hr => ?_,
    fun u hu r hr => ?_, fun u hu => h.userLt u (hl.mem_iff.1 hu),
    fun r hr => h.revokeLt r (hm.mem_iff.1 hr)⟩
  · obtain ⟨hmem, hsome⟩ := h.back r (hm.mem_iff.1 hr)
    exact ⟨hl.mem_iff.2 hmem, hsome⟩
  · obtain ⟨hmem, hback⟩ := h.forth u (hl.mem_iff.1 hu) r hr
    exact ⟨hm.mem_iff.2 hmem, hback⟩

theorem foldl_genKey_user (fresh : UserBuf → Str × ℕ) (pwd : Str) (us : List ℕ)
    (user : ℕ → UserBuf) (a : ℕ) :
    (us.foldl (genKey fresh pwd) user a).user = (user a).user := by
  induction us generalizing user with
  | nil => rfl
  | cons u us ih =>
    rw [List.foldl_cons, ih, genKey]
    split
    · by_cases hau : a = u
      · rw [hau, Function.update_self]
        rfl
      · rw [Function.update_of_ne hau]
    · rfl

/-- The same users are on the list. -/
theorem Links.signUsers (h : s.Links l m) (kv : AddrSort) (opens : Bool)
    (fresh : UserBuf → Str × ℕ) (pwd : Str) :
    ∃ l' m', (s.signUsers kv opens fresh pwd).Links l' m' ∧
      (l'.map (s.signUsers kv opens fresh pwd).entry).Perm (l.map s.entry) := by
  rw [ServiceLists.signUsers]
  split
  · have hsort := h.sortLists kv
    refine ⟨_, _, hsort.setUser _, ?_⟩
    dsimp only
    rw [SLinkList.forEach_eq_foldl hsort.users.seg
      (length_le_brk hsort.users.nodup hsort.userLt)]
    refine List.Perm.trans ?_ ((kv.perm s.user l).map s.entry)
    rw [List.map_congr_left fun a _ => entry_setUser (foldl_genKey_user fresh pwd _ _ a)]
    exact List.Perm.refl _
  · exact ⟨l, m, h, List.Perm.refl _⟩

end ServiceLists

/-! ## Runs -/

namespace ServiceRun

variable {kv : AddrSort} {s : ServiceRun}

/-- The elements are linked, and those on the list of users are the roster. -/
def Inv (s : ServiceRun) : Prop :=
  ∃ l m, s.lists.Links l m ∧ (l.map s.lists.entry).Perm s.roster

theorem inv_start (service : Str) : (start service).Inv := by
  refine ⟨[], [], ⟨SLinkList.holds_empty, SLinkList.holds_empty, ?_, ?_, ?_, ?_⟩,
    List.Perm.refl _⟩
  · exact fun r hr => absurd hr List.not_mem_nil
  · exact fun u hu => absurd hu List.not_mem_nil
  · exact fun u hu => absurd hu List.not_mem_nil
  · exact fun r hr => absurd hr List.not_mem_nil

theorem Inv.linked (h : s.Inv) : s.Linked := by
  obtain ⟨l, m, hlinks, hperm⟩ := h
  refine ⟨l, m, hlinks.users, hlinks.revoke, ?_, ?_⟩
  · have hpairs := hperm.map fun e : RosterUser => (e.elem, e.name)
    rw [List.map_map] at hpairs
    exact hpairs
  · refine hlinks.revoked_perm.trans ?_
    have hrevoked := (hperm.filter RosterUser.revoked).map RosterUser.elem
    rw [List.filter_map, List.map_map] at hrevoked
    refine List.Perm.trans (List.Perm.of_eq ?_) hrevoked
    exact (List.map_id _).symm

theorem Inv.added (h : s.Inv) (u : UserBuf) (revoked : Bool) :
    Inv ⟨s.lists.add u revoked, s.added u revoked⟩ := by
  obtain ⟨l, m, hlinks, hperm⟩ := h
  obtain ⟨m', hlinks', hentries⟩ := hlinks.add u revoked
  refine ⟨_, m', hlinks', ?_⟩
  rw [hentries]
  exact hperm.append_right _

theorem Inv.step (h : s.Inv) {e : Event} (hok : s.TailsStay e) : (s.step kv e).Inv := by
  cases e with
  | addUser u => exact h.added u _
  | addElem u => exact h.added u.user _
  | addName name => exact h.added (s.lists.nameBuf name) false
  | revokeUser name now =>
    obtain ⟨l, m, hlinks, hperm⟩ := h
    obtain ⟨m', hlinks', hentries⟩ := hlinks.revokeUsers name now
    refine ⟨l, m', hlinks', ?_⟩
    show (l.map (s.lists.revokeUsers name now).1.entry).Perm _
    rw [hentries]
    exact hperm.map _
  | removeUser name =>
    obtain ⟨l, m, hlinks, hperm⟩ := h
    have hwithout := hlinks.removeUser name
    refine ⟨_, _, hlinks.without hwithout hok.1 hok.2, ?_⟩
    show (List.map (s.lists.removeUser name).1.entry _).Perm _
    rw [hwithout.map_entry]
    exact hperm.filter _
  | signUsers opens fresh pwd =>
    obtain ⟨l, m, hlinks, hperm⟩ := h
    obtain ⟨l', m', hlinks', hentries⟩ := hlinks.signUsers kv opens fresh pwd
    exact ⟨l', m', hlinks', hentries.trans hperm⟩

/-- An element that is at the tail and went is not the last one. -/
theorem tailsStay_of_linked (h : s.Inv) {e : Event} (hlinked : (s.step kv e).Linked) :
    s.TailsStay e := by
  cases e with
  | removeUser name =>
    obtain ⟨l, m, hlinks, -⟩ := h
    have hwithout := hlinks.removeUser name
    obtain ⟨l', m', hl, hm, -, -⟩ := hlinked
    obtain rfl := hl.seg.unique hwithout.users
    obtain rfl := hm.seg.unique hwithout.revoke
    have hgone : ∀ {l : List ℕ} {p : ℕ → Bool} {a : ℕ}, (l.filter p).getLast? = some a →
        p a = true := fun ha => (List.mem_filter.1 (List.mem_of_getLast? ha)).2
    constructor
    · intro u hu hname
      have hstay := hgone (hl.tail.symm.trans (hwithout.usersTl.trans hu))
      rw [ServiceLists.named_eq_true.2 hname] at hstay
      exact absurd hstay Bool.false_ne_true
    · intro r hr hname
      have hstay := hgone (hm.tail.symm.trans (hwithout.revokeTl.trans hr))
      rw [ServiceLists.named_eq_true.2 hname] at hstay
      exact absurd hstay Bool.false_ne_true
  | addUser | addElem | addName | revokeUser | signUsers => trivial

/-- **The lists are those of the users that were added and not removed** exactly as long as
no user is removed whose element, or that of its revocation, is the last one. -/
theorem linked_iff_tailsStay (kv : AddrSort) (service : Str) (es : List Event) :
    (∀ k, ((es.take k).foldl (step kv) (start service)).Linked) ↔
      Run.AllOk (step kv) TailsStay (start service) es := by
  symm
  apply Run.allOk_iff_good (fun (s : ServiceRun) (h : s.Inv) => h.linked)
  · intro s e h hok
    exact h.step hok
  · intro s e h hlinked
    exact tailsStay_of_linked h hlinked
  · exact inv_start service

/-- A user that is added after the only one was removed is not on the list. -/
theorem added_user_lost :
    ¬ ∀ (kv : AddrSort) (service : Str) (es : List Event),
      (es.foldl (step kv) (start service)).Linked := by
  intro h
  obtain ⟨l, m, hl, -, hroster, -⟩ :=
    h .insertion [83] [.addName [97], .removeUser [97], .addName [98]]
  have hhd : (([.addName [97], .removeUser [97], .addName [98]] : List Event).foldl
      (step .insertion) (start [83])).lists.users.hd = none := by
    decide
  have hnil : l = [] := by
    have hseg := hl.seg
    rw [hhd] at hseg
    exact hseg.unique rfl
  rw [hnil] at hroster
  exact absurd hroster.length_eq (by decide)

end ServiceRun

end Raims
