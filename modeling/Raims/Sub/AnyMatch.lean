import Raims.Lib.BitSpace
import Raims.Lib.Run
import Raims.Lib.StampCache
import Raims.Sub.PeerBloom

/-!
# The peers that match a subject (`SubDB::any_match`)

The peers whose bloom matches a subject are kept by its hash, in memory that is not zeroed,
with the time of the last change of subscriptions that was known. They are searched again
when there was a later one. Subscriptions and departures set that time, authentications do
not, and it is zero until something has set it.
-/

namespace Raims

/-! ## The cache -/

/-- `AnyMatch`. Its bits are those below `max_uid`. -/
structure AnyMatch where
  monoTime : ℕ
  maxUid : ℕ
  sub : Subject
  isQueue : Bool
  bits : Finset ℕ

/-- `AnyMatchTab`: the entry of a hash, the word at which it begins, and the words that are
taken. -/
structure AnyMatchTab where
  ht : UInt32 → Option AnyMatch
  off : UInt32 → ℕ
  maxOff : ℕ

/-- raikv, and the multicast address of the node. -/
structure AnyKv extends PeerKv where
  /-- `BloomMatch::match_sub` -/
  matchSub : BloomRef → UInt32 → Subject → Bool
  /-- the bytes of an `AnyMatch` before the subject, with `BloomMatch::match_size` -/
  headSize : ℕ → ℕ
  /-- the subject and the bits begin at words -/
  words_headSize : ∀ len, 8 ∣ headSize len
  mchLen : ℕ
  mchHash : UInt32

/-- `align` -/
def alignTo (n k : ℕ) : ℕ := (n + (k - 1)) / k * k

namespace AnyMatch

/-- `init_any`, where `mem` is what was in the memory. -/
def initAny (s : Subject) (uidCnt : ℕ) (isQueue : Bool) (mem : ℕ → Bool) : AnyMatch :=
  let maxUid := alignTo uidCnt 64
  ⟨0, maxUid, s, isQueue, (Finset.range maxUid).filter (mem ·)⟩

/-- The bytes of an entry, which `init_any` returns. -/
def bytes (kv : AnyKv) (any : AnyMatch) : ℕ :=
  kv.headSize any.sub.length + alignTo any.sub.length 8 + any.maxUid / 8

/-- The words of an entry. -/
def words (kv : AnyKv) (any : AnyMatch) : ℕ := any.bytes kv / 8

/-- The set of uids. -/
def uids (any : AnyMatch) : Finset ℕ := any.bits.filter (· < any.maxUid)

/-- `get_destination`: the uid of the peer, none for a null pointer. -/
def getDestination (rand : ℕ) (any : AnyMatch) : Option ℕ :=
  let set := BitSpace.toList any.uids
  set[if 1 < set.length then rand % set.length else 0]?

end AnyMatch

namespace AnyMatchTab

def reset : AnyMatchTab := ⟨fun _ => none, fun _ => 0, 0⟩

def gc (t : AnyMatchTab) : AnyMatchTab := if 1024 * 1024 < t.maxOff * 8 then reset else t

/-- The entry is written. -/
def set (t : AnyMatchTab) (h : UInt32) (any : AnyMatch) : AnyMatchTab :=
  { t with ht := Function.update t.ht h (some any) }

/-- An entry is added at the end. -/
def push (kv : AnyKv) (t : AnyMatchTab) (h : UInt32) (any : AnyMatch) : AnyMatchTab :=
  { t.set h any with
    off := Function.update t.off h t.maxOff
    maxOff := t.maxOff + any.words kv }

/-- `get_match` -/
def getMatch (kv : AnyKv) (t : AnyMatchTab) (s : Subject) (h : UInt32) (maxUid : ℕ)
    (isQueue : Bool) (mem : ℕ → Bool) : AnyMatchTab × AnyMatch :=
  let new := AnyMatch.initAny s maxUid isQueue mem
  match t.ht h with
  | some any =>
    if any.sub = s ∧ maxUid ≤ any.maxUid ∧ any.isQueue = isQueue then (t, any)
    else (reset.push kv h new, new)
  | none => (t.push kv h new, new)

/-! ### The memory -/

variable {kv : AnyKv} {t : AnyMatchTab}

/-- The byte is one of the entry at the hash. -/
def Covers (kv : AnyKv) (t : AnyMatchTab) (h : UInt32) (i : ℕ) : Prop :=
  ∃ any ∈ t.ht h, 8 * t.off h ≤ i ∧ i < 8 * t.off h + any.bytes kv

/-- The entries are in the words that are taken, no byte is one of two entries, and the bits
of an entry are whole words. -/
structure Laid (kv : AnyKv) (t : AnyMatchTab) : Prop where
  taken : ∀ h i, t.Covers kv h i → i < 8 * t.maxOff
  apart : ∀ h h' i, t.Covers kv h i → t.Covers kv h' i → h = h'

theorem laid_reset : Laid kv reset where
  taken _ _ h := absurd h.choose_spec.1 (Option.not_mem_none _)
  apart _ _ _ h _ := absurd h.choose_spec.1 (Option.not_mem_none _)

/-- The words of a new entry are all its bytes. -/
theorem bytes_initAny (kv : AnyKv) (s : Subject) (uidCnt : ℕ) (isQueue : Bool) (mem : ℕ → Bool) :
    (AnyMatch.initAny s uidCnt isQueue mem).bytes kv =
      8 * (AnyMatch.initAny s uidCnt isQueue mem).words kv := by
  obtain ⟨k, hk⟩ := kv.words_headSize s.length
  have hbytes : (AnyMatch.initAny s uidCnt isQueue mem).bytes kv =
      8 * k + alignTo s.length 8 + alignTo uidCnt 64 / 8 := by
    show kv.headSize s.length + _ + _ = _
    rw [hk]
    rfl
  rw [AnyMatch.words, hbytes, alignTo, alignTo]
  omega

/-- An entry that is added begins behind those that are there. -/
theorem Laid.push (ht : t.Laid kv) (h : UInt32) {any : AnyMatch}
    (hany : any.bytes kv = 8 * any.words kv) : (t.push kv h any).Laid kv := by
  have hself {i : ℕ} (hi : (t.push kv h any).Covers kv h i) :
      8 * t.maxOff ≤ i ∧ i < 8 * (t.maxOff + any.words kv) := by
    obtain ⟨any', hmem, hle, hlt⟩ := hi
    have heq : any' = any := by
      simpa [AnyMatchTab.push, AnyMatchTab.set] using hmem.symm
    simp only [AnyMatchTab.push, Function.update_self] at hle hlt
    rw [heq, hany] at hlt
    omega
  have hother {h' : UInt32} {i : ℕ} (hne : h' ≠ h) (hi : (t.push kv h any).Covers kv h' i) :
      t.Covers kv h' i := by
    obtain ⟨any', hmem, hle, hlt⟩ := hi
    simp only [AnyMatchTab.push, AnyMatchTab.set, Function.update_of_ne hne] at hmem hle hlt
    exact ⟨any', hmem, hle, hlt⟩
  refine ⟨fun h' i hi => ?_, fun h₁ h₂ i h₁i h₂i => ?_⟩
  · show i < 8 * (t.maxOff + any.words kv)
    by_cases hne : h' = h
    · subst hne
      exact (hself hi).2
    · have := ht.taken h' i (hother hne hi)
      omega
  · by_cases hne₁ : h₁ = h
    · by_cases hne₂ : h₂ = h
      · rw [hne₁, hne₂]
      · subst hne₁
        have hlt := ht.taken h₂ i (hother hne₂ h₂i)
        have hle := (hself h₁i).1
        omega
    · by_cases hne₂ : h₂ = h
      · subst hne₂
        have hlt := ht.taken h₁ i (hother hne₁ h₁i)
        have hle := (hself h₂i).1
        omega
      · exact ht.apart h₁ h₂ i (hother hne₁ h₁i) (hother hne₂ h₂i)

/-- An entry is written in its place. -/
theorem Laid.set (ht : t.Laid kv) {h : UInt32} {old any : AnyMatch} (hold : t.ht h = some old)
    (hany : any.bytes kv = old.bytes kv) : (t.set h any).Laid kv := by
  have hcovers {h' : UInt32} {i : ℕ} (hi : (t.set h any).Covers kv h' i) : t.Covers kv h' i := by
    obtain ⟨any', hmem, hle, hlt⟩ := hi
    by_cases hne : h' = h
    · subst hne
      have heq : any' = any := by
        simpa [AnyMatchTab.set] using hmem.symm
      rw [heq, hany] at hlt
      exact ⟨old, hold, hle, hlt⟩
    · simp only [AnyMatchTab.set, Function.update_of_ne hne] at hmem
      exact ⟨any', hmem, hle, hlt⟩
  exact ⟨fun h' i hi => ht.taken h' i (hcovers hi),
    fun h₁ h₂ i h₁i h₂i => ht.apart h₁ h₂ i (hcovers h₁i) (hcovers h₂i)⟩

theorem Laid.getMatch (ht : t.Laid kv) (s : Subject) (h : UInt32) (maxUid : ℕ) (isQueue : Bool)
    (mem : ℕ → Bool) : (t.getMatch kv s h maxUid isQueue mem).1.Laid kv := by
  unfold AnyMatchTab.getMatch
  dsimp only
  split
  · split
    · exact ht
    · exact laid_reset.push h (bytes_initAny kv _ _ _ _)
  · exact ht.push h (bytes_initAny kv _ _ _ _)

theorem Laid.gc (ht : t.Laid kv) : t.gc.Laid kv := by
  unfold AnyMatchTab.gc
  split
  · exact laid_reset
  · exact ht

end AnyMatchTab

/-! ## The peers -/

/-- The fields of a `UserBridge` that are used here. -/
structure MatchPeer extends PeerSub where
  /-- `AUTHENTICATED_STATE` -/
  authenticated : Bool
  /-- `INBOX_ROUTE_STATE` -/
  inboxRoute : Bool
  ibxLen : ℕ
  ibxHash : UInt32

namespace MatchPeer

variable (n : MatchPeer)

/-- `add_inbox_route`, when there is a route. -/
def addInboxRoute : MatchPeer :=
  if n.inboxRoute then n
  else { n with bloom := n.bloom.addRoute n.ibxLen n.ibxHash, inboxRoute := true }

/-- `add_authenticated`, of a peer that is not refused; `route` if there is a route to its
inbox. -/
def addAuthenticated (kv : AnyKv) (route : Bool) : MatchPeer :=
  if n.authenticated then n
  else
    let n : MatchPeer :=
      { n with
        authenticated := true
        bloom := if n.subSeqno = 0 then n.bloom.addRoute kv.mchLen kv.mchHash else n.bloom }
    if route then n.addInboxRoute else n

/-- `remove_authenticated` -/
def removeAuthenticated : MatchPeer :=
  { n with subSeqno := 0, bloom := .empty, authenticated := false, inboxRoute := false }

/-- The peer is authenticated, and its bloom matches the subject. -/
def Matches (kv : AnyKv) (h : UInt32) (s : Subject) : Prop :=
  n.authenticated = true ∧ kv.matchSub n.bloom h s = true

instance (kv : AnyKv) (h : UInt32) (s : Subject) : Decidable (n.Matches kv h s) :=
  inferInstanceAs (Decidable (_ ∧ _))

end MatchPeer

/-- The peers by uid, the time of the last change of subscriptions, the cache and the
clock. -/
structure AnyDB where
  bridgeTab : List (Option MatchPeer)
  subUpdateMonoTime : ℕ
  anyTab : AnyMatchTab
  monoTime : ℕ

inductive AnyOp where
  | addUser (ibxLen : ℕ) (ibxHash : UInt32)
  | addInboxRoute (uid : ℕ)
  | addAuthenticated (uid : ℕ) (route : Bool)
  | removeAuthenticated (uid : ℕ)
  | recvSub (uid : ℕ) (m : SubMsg)
  | recvBloom (uid subSeqno : ℕ) (bloom : BloomRef)
  | anyMatch (s : Subject) (h : UInt32) (mem : ℕ → Bool)
  /-- `routes` are the uids that `uid_route` gives -/
  | anyQueue (s : Subject) (h : UInt32) (routes : List ℕ) (mem : ℕ → Bool)
  | gc

namespace AnyDB

/-- The uid 0 is the node. -/
def init : AnyDB := ⟨[none], 0, .reset, 0⟩

variable (kv : AnyKv) (db : AnyDB)

/-- `next_uid` -/
def nextUid : ℕ := db.bridgeTab.length

/-- `bridge_tab.ptr[ uid ]` -/
def find (uid : ℕ) : Option MatchPeer := db.bridgeTab[uid]?.join

def setPeer (uid : ℕ) (n : MatchPeer) : AnyDB :=
  { db with bridgeTab := db.bridgeTab.set uid (some n) }

/-- `sub_update_mono_time = current_monotonic_time_ns()` -/
def setUpdate : AnyDB := { db with subUpdateMonoTime := db.monoTime }

/-- The time that has passed, which is never none. -/
def tick (elapsed : ℕ) : AnyDB := { db with monoTime := db.monoTime + elapsed + 1 }

/-- `add_user` and `new_uid` -/
def addUser (ibxLen : ℕ) (ibxHash : UInt32) : AnyDB :=
  { db with
    bridgeTab := db.bridgeTab ++ [some ⟨⟨0, .empty⟩, false, false, ibxLen, ibxHash⟩] }

def addInboxRoute (uid : ℕ) : AnyDB :=
  match db.find uid with
  | some n => db.setPeer uid n.addInboxRoute
  | none => db

def addAuthenticated (uid : ℕ) (route : Bool) : AnyDB :=
  match db.find uid with
  | some n => db.setPeer uid (n.addAuthenticated kv route)
  | none => db

def removeAuthenticated (uid : ℕ) : AnyDB :=
  match db.find uid with
  | some n =>
    let db := if n.authenticated then db.setUpdate else db
    db.setPeer uid n.removeAuthenticated
  | none => db

/-- `on_msg`, of a change of the subscriptions: it is taken in order. -/
def recvSub (uid : ℕ) (m : SubMsg) : AnyDB :=
  match db.find uid with
  | some n =>
    if n.authenticated ∧ m.seqno = n.subSeqno + 1 then
      db.setUpdate.setPeer uid { n with toPeerSub := n.toPeerSub.onMsg kv.toPeerKv m }
    else db
  | none => db

/-- `recv_bloom` -/
def recvBloom (uid subSeqno : ℕ) (bloom : BloomRef) : AnyDB :=
  match db.find uid with
  | some n =>
    if n.subSeqno ≤ subSeqno then
      db.setUpdate.setPeer uid { n with toPeerSub := n.toPeerSub.recvBloom subSeqno bloom }
    else db
  | none => db

/-- The loop over the peers. -/
def matchUids (h : UInt32) (s : Subject) : Finset ℕ :=
  ((List.range' 1 (db.nextUid - 1)).filter fun uid =>
    (db.find uid).any fun n => n.Matches kv h s).toFinset

/-- `any_match` -/
def anyMatch (s : Subject) (h : UInt32) (mem : ℕ → Bool) : AnyDB × AnyMatch :=
  let (tab, any) := db.anyTab.getMatch kv s h db.nextUid false mem
  if any.monoTime < db.subUpdateMonoTime then
    let any := { any with bits := db.matchUids kv h s, monoTime := db.subUpdateMonoTime }
    ({ db with anyTab := tab.set h any }, any)
  else ({ db with anyTab := tab }, any)

/-- `any_queue` -/
def anyQueue (s : Subject) (h : UInt32) (routes : List ℕ) (mem : ℕ → Bool) : AnyDB × AnyMatch :=
  let (tab, any) := db.anyTab.getMatch kv s h db.nextUid true mem
  let any := { any with bits := routes.toFinset }
  ({ db with anyTab := tab.set h any }, any)

def step (e : ℕ × AnyOp) : AnyDB :=
  let db := db.tick e.1
  match e.2 with
  | .addUser ibxLen ibxHash => db.addUser ibxLen ibxHash
  | .addInboxRoute uid => db.addInboxRoute uid
  | .addAuthenticated uid route => db.addAuthenticated kv uid route
  | .removeAuthenticated uid => db.removeAuthenticated uid
  | .recvSub uid m => db.recvSub kv uid m
  | .recvBloom uid subSeqno bloom => db.recvBloom uid subSeqno bloom
  | .anyMatch s h mem => (db.anyMatch kv s h mem).1
  | .anyQueue s h routes mem => (db.anyQueue kv s h routes mem).1
  | .gc => { db with anyTab := db.anyTab.gc }

/-- The node after a run. -/
def after (es : List (ℕ × AnyOp)) : AnyDB := es.foldl (step kv) init

/-! ## What an answer should be -/

/-- The peer at a uid is authenticated and its bloom matches the subject. -/
def PeerMatches (uid : ℕ) (h : UInt32) (s : Subject) : Prop :=
  1 ≤ uid ∧ ∃ n ∈ db.find uid, n.Matches kv h s

/-- The answer is the set of the peers that match, and the peer that is taken from it is one
of them. -/
structure Exact (s : Subject) (h : UInt32) (any : AnyMatch) : Prop where
  set : ∀ uid, uid ∈ any.uids ↔ db.PeerMatches kv uid h s
  dest : ∀ rand uid, any.getDestination rand = some uid → db.PeerMatches kv uid h s

/-- An entry that is taken as it is. -/
def Current (h : UInt32) (any : AnyMatch) : Prop :=
  db.anyTab.ht h = some any ∧ any.monoTime = db.subUpdateMonoTime ∧ db.subUpdateMonoTime ≠ 0

/-- A peer that is authenticated, or whose inbox is added, matches no subject of an entry
that is taken as it is and that it did not match; and a subject is asked for only after a
change of subscriptions or a departure. -/
def Covered : ℕ × AnyOp → Prop
  | (_, .anyMatch _ _ _) => db.subUpdateMonoTime ≠ 0
  | (_, .addAuthenticated uid route) => ∀ n ∈ db.find uid, n.authenticated = false →
      ∀ h any, db.Current h any →
        kv.matchSub (n.addAuthenticated kv route).bloom h any.sub = false
  | (_, .addInboxRoute uid) => ∀ n ∈ db.find uid, n.authenticated = true →
      ∀ h any, db.Current h any →
        kv.matchSub n.addInboxRoute.bloom h any.sub = kv.matchSub n.bloom h any.sub
  | _ => True

/-! ## The cache -/

theorem le_alignTo_64 (n : ℕ) : n ≤ alignTo n 64 := by
  rw [alignTo]
  omega

/-- What `get_match` returns is the entry of the hash. -/
theorem getMatch_entry (t : AnyMatchTab) (s : Subject) (h : UInt32) (maxUid : ℕ)
    (isQueue : Bool) (mem : ℕ → Bool) {t' : AnyMatchTab} {any : AnyMatch}
    (heq : t.getMatch kv s h maxUid isQueue mem = (t', any)) :
    t'.ht h = some any ∧ any.sub = s ∧ maxUid ≤ any.maxUid ∧ any.isQueue = isQueue := by
  unfold AnyMatchTab.getMatch at heq
  dsimp only at heq
  split at heq
  · next old hold =>
      split at heq
      · next hsame =>
          cases heq
          exact ⟨hold, hsame⟩
      · cases heq
        exact ⟨Function.update_self _ _ _, rfl, le_alignTo_64 maxUid, rfl⟩
  · cases heq
    exact ⟨Function.update_self _ _ _, rfl, le_alignTo_64 maxUid, rfl⟩

/-- An entry that `get_match` adds has no stamp. -/
theorem getMatch_valid {ok : UInt32 → AnyMatch → Prop} {version : ℕ} {t t' : AnyMatchTab}
    {s : Subject} {h : UInt32} {maxUid : ℕ} {isQueue : Bool} {mem : ℕ → Bool} {any : AnyMatch}
    (hvalid : StampCache.Valid AnyMatch.monoTime ok version t.ht)
    (heq : t.getMatch kv s h maxUid isQueue mem = (t', any)) :
    StampCache.Valid AnyMatch.monoTime ok version t'.ht := by
  unfold AnyMatchTab.getMatch at heq
  dsimp only at heq
  split at heq
  · split at heq
    · cases heq
      exact hvalid
    · cases heq
      exact (StampCache.Valid.empty _ _ _).insert h rfl
  · cases heq
    exact hvalid.insert h rfl

/-! ## The peers -/

section

variable {kv db}

theorem find_setPeer_self {uid : ℕ} {n : MatchPeer} (h : db.find uid = some n) (n' : MatchPeer) :
    (db.setPeer uid n').find uid = some n' := by
  have hlt : uid < db.bridgeTab.length := by
    by_contra hge
    rw [find, List.getElem?_eq_none (Nat.le_of_not_lt hge)] at h
    exact Option.some_ne_none _ h.symm
  rw [find, setPeer, List.getElem?_set_self hlt]
  rfl

theorem find_setPeer_of_ne {uid v : ℕ} (h : v ≠ uid) (n : MatchPeer) :
    (db.setPeer uid n).find v = db.find v := by
  rw [find, setPeer, List.getElem?_set_ne h.symm]
  rfl

/-- Only the peer that is set changes. -/
theorem peerMatches_setPeer {uid : ℕ} {n n' : MatchPeer} {h : UInt32} {s : Subject}
    (hn : db.find uid = some n) (heq : n'.Matches kv h s ↔ n.Matches kv h s) (v : ℕ) :
    (db.setPeer uid n').PeerMatches kv v h s ↔ db.PeerMatches kv v h s := by
  refine and_congr_right fun _ => ?_
  by_cases hv : v = uid
  · subst hv
    simp only [find_setPeer_self hn, hn, Option.mem_def, Option.some.injEq, exists_eq_left']
    exact heq
  · rw [find_setPeer_of_ne hv]

theorem find_addUser {uid : ℕ} (ibxLen : ℕ) (ibxHash : UInt32) (h : uid ≠ db.nextUid) :
    (db.addUser ibxLen ibxHash).find uid = db.find uid := by
  rw [find, find, addUser]
  rcases Nat.lt_or_gt_of_ne h with hlt | hgt
  · rw [List.getElem?_append_left hlt]
  · rw [List.getElem?_eq_none (Nat.le_of_lt hgt), List.getElem?_eq_none]
    rw [List.length_append]
    exact hgt

/-- A user that is added is not authenticated. -/
theorem peerMatches_addUser (ibxLen : ℕ) (ibxHash : UInt32) (uid : ℕ) (h : UInt32) (s : Subject) :
    (db.addUser ibxLen ibxHash).PeerMatches kv uid h s ↔ db.PeerMatches kv uid h s := by
  refine and_congr_right fun _ => ?_
  by_cases huid : uid = db.nextUid
  · subst huid
    have hnew : (db.addUser ibxLen ibxHash).find db.nextUid =
        some ⟨⟨0, .empty⟩, false, false, ibxLen, ibxHash⟩ := by
      rw [find, addUser, nextUid, List.getElem?_concat_length]
      rfl
    have hold : db.find db.nextUid = none := by
      rw [find, nextUid, List.getElem?_eq_none (Nat.le_refl _)]
      rfl
    rw [hnew, hold]
    constructor
    · rintro ⟨n, hn, hauth, -⟩
      rw [← Option.some.inj hn] at hauth
      exact absurd hauth Bool.false_ne_true
    · rintro ⟨n, hn, -⟩
      exact absurd hn (Option.not_mem_none n)
  · rw [find_addUser ibxLen ibxHash huid]

theorem PeerMatches.lt_nextUid {uid : ℕ} {h : UInt32} {s : Subject}
    (hmatch : db.PeerMatches kv uid h s) : uid < db.nextUid := by
  obtain ⟨-, n, hn, -⟩ := hmatch
  by_contra hge
  rw [Option.mem_def, find, List.getElem?_eq_none (Nat.le_of_not_lt hge)] at hn
  exact Option.some_ne_none _ hn.symm

theorem mem_matchUids {uid : ℕ} {h : UInt32} {s : Subject} :
    uid ∈ db.matchUids kv h s ↔ db.PeerMatches kv uid h s := by
  rw [matchUids, List.mem_toFinset, List.mem_filter, List.mem_range'_1, Option.any_eq_true]
  constructor
  · rintro ⟨⟨hle, -⟩, n, hn, hmatch⟩
    exact ⟨hle, n, hn, of_decide_eq_true hmatch⟩
  · intro hmatches
    have hlt := hmatches.lt_nextUid
    obtain ⟨hle, n, hn, hmatch⟩ := hmatches
    refine ⟨⟨hle, ?_⟩, n, hn, decide_eq_true hmatch⟩
    rwa [Nat.add_sub_cancel' (Nat.le_of_lt (Nat.lt_of_le_of_lt hle hlt))]

end

/-! ## The invariant -/

/-- The entry of a subject has the peers that match. -/
def Shows (h : UInt32) (any : AnyMatch) : Prop :=
  any.isQueue = false ∧ ∀ uid, uid ∈ any.uids ↔ db.PeerMatches kv uid h any.sub

/-- The entries that are taken as they are are right. -/
def CacheValid : Prop :=
  StampCache.Valid AnyMatch.monoTime (db.Shows kv) db.subUpdateMonoTime db.anyTab.ht

/-- The time of the last change is not after the clock. -/
structure Inv : Prop where
  cache : db.CacheValid kv
  le : db.subUpdateMonoTime ≤ db.monoTime

/-- What a search writes, it writes in the place of the entry. -/
theorem laid_anyMatch (ht : db.anyTab.Laid kv) (s : Subject) (h : UInt32) (mem : ℕ → Bool) :
    (db.anyMatch kv s h mem).1.anyTab.Laid kv := by
  have hlaid := ht.getMatch s h db.nextUid false mem
  unfold anyMatch
  cases heq : db.anyTab.getMatch kv s h db.nextUid false mem with
  | mk tab any =>
    rw [heq] at hlaid
    dsimp only
    split
    · exact hlaid.set (getMatch_entry kv _ _ _ _ _ _ heq).1 rfl
    · exact hlaid

theorem laid_anyQueue (ht : db.anyTab.Laid kv) (s : Subject) (h : UInt32) (routes : List ℕ)
    (mem : ℕ → Bool) : (db.anyQueue kv s h routes mem).1.anyTab.Laid kv := by
  have hlaid := ht.getMatch s h db.nextUid true mem
  unfold anyQueue
  cases heq : db.anyTab.getMatch kv s h db.nextUid true mem with
  | mk tab any =>
    rw [heq] at hlaid
    exact hlaid.set (getMatch_entry kv _ _ _ _ _ _ heq).1 rfl

/-- The operations on the peers leave the cache alone. -/
theorem laid_step (ht : db.anyTab.Laid kv) (e : ℕ × AnyOp) : (db.step kv e).anyTab.Laid kv := by
  obtain ⟨elapsed, op⟩ := e
  have htick : (db.tick elapsed).anyTab.Laid kv := ht
  dsimp only [step]
  generalize db.tick elapsed = db at htick ⊢
  cases op with
  | addUser => exact htick
  | anyMatch s h mem => exact laid_anyMatch kv db htick s h mem
  | anyQueue s h routes mem => exact laid_anyQueue kv db htick s h routes mem
  | gc => exact htick.gc
  | addInboxRoute uid =>
    dsimp only
    unfold addInboxRoute
    split <;> exact htick
  | addAuthenticated uid route =>
    dsimp only
    unfold addAuthenticated
    split <;> exact htick
  | removeAuthenticated uid =>
    dsimp only
    unfold removeAuthenticated
    split
    · dsimp only
      split <;> exact htick
    · exact htick
  | recvSub uid m =>
    dsimp only
    unfold recvSub
    split
    · split <;> exact htick
    · exact htick
  | recvBloom uid subSeqno bloom =>
    dsimp only
    unfold recvBloom
    split
    · split <;> exact htick
    · exact htick

/-- In every run no byte of the table is one of two entries. -/
theorem laid_after (es : List (ℕ × AnyOp)) : (after kv es).anyTab.Laid kv := by
  have hreach : Run.Reach (AnyDB.step kv) (fun _ _ => True) init (after kv es) :=
    Run.Reach.foldl .start (Run.allOk_true init es)
  exact @Run.Reach.invariant _ _ _ _ _ (fun db => db.anyTab.Laid kv) AnyMatchTab.laid_reset
    (fun db e ht _ => laid_step kv db ht e) _ hreach

theorem inv_init : init.Inv kv where
  cache := StampCache.Valid.empty _ _ _
  le := Nat.le_refl 0

section

variable {kv db}

/-- Without a change of the time, the peers that match are the same. -/
theorem CacheValid.change {db' : AnyDB} (h : db.CacheValid kv) (htab : db'.anyTab = db.anyTab)
    (hupdate : db'.subUpdateMonoTime = db.subUpdateMonoTime)
    (hsame : ∀ hash any, db.Current hash any → ∀ uid,
      db'.PeerMatches kv uid hash any.sub ↔ db.PeerMatches kv uid hash any.sub) :
    db'.CacheValid kv := by
  rw [CacheValid, htab, hupdate]
  refine StampCache.Valid.change h ?_
  rintro hash any hany hstamp hne ⟨hqueue, huids⟩
  exact ⟨hqueue, fun uid => (huids uid).trans (hsame hash any ⟨hany, hstamp, hne⟩ uid).symm⟩

theorem CacheValid.setPeer (h : db.CacheValid kv) {uid : ℕ} {n n' : MatchPeer}
    (hn : db.find uid = some n)
    (hsame : ∀ hash any, db.Current hash any →
      (n'.Matches kv hash any.sub ↔ n.Matches kv hash any.sub)) :
    (db.setPeer uid n').CacheValid kv :=
  h.change rfl rfl fun hash any hany v => peerMatches_setPeer hn (hsame hash any hany) v

/-- A change of the time leaves no entry that is taken as it is. -/
theorem CacheValid.setUpdate (h : db.CacheValid kv) (hlt : db.subUpdateMonoTime < db.monoTime)
    (uid : ℕ) (n : MatchPeer) : (db.setUpdate.setPeer uid n).CacheValid kv :=
  h.bump hlt

theorem CacheValid.addInboxRoute (h : db.CacheValid kv) {uid : ℕ}
    (hok : ∀ n ∈ db.find uid, n.authenticated = true → ∀ hash any, db.Current hash any →
      kv.matchSub n.addInboxRoute.bloom hash any.sub = kv.matchSub n.bloom hash any.sub) :
    (db.addInboxRoute uid).CacheValid kv := by
  unfold AnyDB.addInboxRoute
  split
  · next n hn =>
      refine h.setPeer hn fun hash any hany => ?_
      have hauth : n.addInboxRoute.authenticated = n.authenticated := by
        unfold MatchPeer.addInboxRoute
        split <;> rfl
      rw [MatchPeer.Matches, hauth]
      refine and_congr_right fun h => ?_
      rw [hok n hn h hash any hany]
  · exact h

theorem CacheValid.addAuthenticated (h : db.CacheValid kv) {uid : ℕ} {route : Bool}
    (hok : ∀ n ∈ db.find uid, n.authenticated = false → ∀ hash any, db.Current hash any →
      kv.matchSub (n.addAuthenticated kv route).bloom hash any.sub = false) :
    (db.addAuthenticated kv uid route).CacheValid kv := by
  unfold AnyDB.addAuthenticated
  split
  · next n hn =>
      refine h.setPeer hn fun hash any hany => ?_
      cases hauth : n.authenticated with
      | true => rw [MatchPeer.addAuthenticated, if_pos hauth]
      | false =>
        constructor
        · rintro ⟨-, hmatch⟩
          rw [hok n hn hauth hash any hany] at hmatch
          exact absurd hmatch Bool.false_ne_true
        · rintro ⟨hauth', -⟩
          exact absurd (hauth.symm.trans hauth') Bool.false_ne_true
  · exact h

theorem CacheValid.removeAuthenticated (h : db.CacheValid kv)
    (hlt : db.subUpdateMonoTime < db.monoTime) (uid : ℕ) :
    (db.removeAuthenticated uid).CacheValid kv := by
  unfold AnyDB.removeAuthenticated
  split
  · next n hn =>
      cases hauth : n.authenticated with
      | true => exact h.setUpdate hlt uid _
      | false =>
        -- the peer matched nothing
        refine h.setPeer hn fun hash any _ => ?_
        constructor
        · rintro ⟨hauth', -⟩
          exact absurd hauth' Bool.false_ne_true
        · rintro ⟨hauth', -⟩
          exact absurd (hauth.symm.trans hauth') Bool.false_ne_true
  · exact h

theorem CacheValid.recvSub (h : db.CacheValid kv) (hlt : db.subUpdateMonoTime < db.monoTime)
    (uid : ℕ) (m : SubMsg) : (db.recvSub kv uid m).CacheValid kv := by
  unfold AnyDB.recvSub
  split
  · split
    · exact h.setUpdate hlt uid _
    · exact h
  · exact h

theorem CacheValid.recvBloom (h : db.CacheValid kv) (hlt : db.subUpdateMonoTime < db.monoTime)
    (uid subSeqno : ℕ) (bloom : BloomRef) : (db.recvBloom uid subSeqno bloom).CacheValid kv := by
  unfold AnyDB.recvBloom
  split
  · split
    · exact h.setUpdate hlt uid _
    · exact h
  · exact h

/-- The entry that `any_match` returns. -/
theorem CacheValid.anyMatch (h : db.CacheValid kv) (s : Subject) (hash : UInt32)
    (mem : ℕ → Bool) :
    (db.anyMatch kv s hash mem).1.CacheValid kv ∧
      (db.subUpdateMonoTime ≠ 0 →
        ∀ uid, uid ∈ (db.anyMatch kv s hash mem).2.uids ↔ db.PeerMatches kv uid hash s) := by
  unfold AnyDB.anyMatch
  cases heq : db.anyTab.getMatch kv s hash db.nextUid false mem with
  | mk tab any =>
    obtain ⟨hany, rfl, hmax, hqueue⟩ := getMatch_entry kv _ _ _ _ _ _ heq
    have hvalid := getMatch_valid kv h heq
    dsimp only
    split
    · -- the peers are searched again
      have huids : ∀ uid, uid ∈ AnyMatch.uids { any with
          bits := db.matchUids kv hash any.sub, monoTime := db.subUpdateMonoTime } ↔
            db.PeerMatches kv uid hash any.sub := by
        intro uid
        rw [AnyMatch.uids, Finset.mem_filter, mem_matchUids, and_iff_left_iff_imp]
        exact fun hmatch => Nat.lt_of_lt_of_le hmatch.lt_nextUid hmax
      refine ⟨hvalid.update (Nat.le_refl _) fun _ _ => ⟨hqueue, huids⟩, fun _ => huids⟩
    · next hge =>
        refine ⟨hvalid, fun hne => ?_⟩
        have hstamp := Nat.le_antisymm (hvalid.le hash any hany) (Nat.le_of_not_lt hge)
        exact (hvalid.ok hash any hany hstamp hne).2

/-- The entry of a queue is never taken by `any_match`. -/
theorem CacheValid.anyQueue (h : db.CacheValid kv) (s : Subject) (hash : UInt32)
    (routes : List ℕ) (mem : ℕ → Bool) :
    (db.anyQueue kv s hash routes mem).1.CacheValid kv := by
  unfold AnyDB.anyQueue
  cases heq : db.anyTab.getMatch kv s hash db.nextUid true mem with
  | mk tab any =>
    obtain ⟨hany, -, -, hqueue⟩ := getMatch_entry kv _ _ _ _ _ _ heq
    have hvalid := getMatch_valid kv h heq
    refine hvalid.update (hvalid.le hash any hany) fun hstamp hne => ?_
    obtain ⟨hsub, -⟩ := hvalid.ok hash any hany hstamp hne
    exact absurd (hsub.symm.trans hqueue) Bool.false_ne_true

theorem CacheValid.gc (h : db.CacheValid kv) :
    CacheValid kv { db with anyTab := db.anyTab.gc } := by
  show StampCache.Valid _ _ _ db.anyTab.gc.ht
  unfold AnyMatchTab.gc
  split
  · exact StampCache.Valid.empty _ _ _
  · exact h

/-- A step sets the time to the clock, if it sets it. -/
theorem step_le (h : db.subUpdateMonoTime ≤ db.monoTime) (e : ℕ × AnyOp) :
    (db.step kv e).subUpdateMonoTime ≤ (db.step kv e).monoTime := by
  obtain ⟨elapsed, op⟩ := e
  have hle : (db.tick elapsed).subUpdateMonoTime ≤ (db.tick elapsed).monoTime :=
    Nat.le_succ_of_le (Nat.le_trans h (Nat.le_add_right _ _))
  have hset : (db.tick elapsed).setUpdate.subUpdateMonoTime ≤
      (db.tick elapsed).setUpdate.monoTime := Nat.le_refl _
  cases op with
  | addUser => exact hle
  | gc => exact hle
  | anyQueue => exact hle
  | anyMatch s hash mem =>
    show ((db.tick elapsed).anyMatch kv s hash mem).1.subUpdateMonoTime ≤ _
    dsimp only [step]
    unfold anyMatch
    dsimp only
    split <;> exact hle
  | addInboxRoute uid =>
    dsimp only [step]
    unfold addInboxRoute
    split <;> exact hle
  | addAuthenticated uid route =>
    dsimp only [step]
    unfold addAuthenticated
    split <;> exact hle
  | removeAuthenticated uid =>
    dsimp only [step]
    unfold removeAuthenticated
    split
    · next n _ =>
        cases n.authenticated with
        | true => exact hset
        | false => exact hle
    · exact hle
  | recvSub uid m =>
    dsimp only [step]
    unfold recvSub
    split
    · split
      · exact hset
      · exact hle
    · exact hle
  | recvBloom uid subSeqno bloom =>
    dsimp only [step]
    unfold recvBloom
    split
    · split
      · exact hset
      · exact hle
    · exact hle

theorem Inv.step (h : db.Inv kv) {e : ℕ × AnyOp} (hok : db.Covered kv e) :
    (db.step kv e).Inv kv := by
  refine ⟨?_, step_le h.le e⟩
  obtain ⟨elapsed, op⟩ := e
  have hcache : (db.tick elapsed).CacheValid kv := h.cache
  have hlt : (db.tick elapsed).subUpdateMonoTime < (db.tick elapsed).monoTime :=
    Nat.lt_succ_of_le (Nat.le_trans h.le (Nat.le_add_right _ _))
  cases op with
  | addUser ibxLen ibxHash =>
    exact hcache.change rfl rfl fun hash any _ uid =>
      peerMatches_addUser ibxLen ibxHash uid hash any.sub
  | addInboxRoute uid => exact hcache.addInboxRoute hok
  | addAuthenticated uid route => exact hcache.addAuthenticated hok
  | removeAuthenticated uid => exact hcache.removeAuthenticated hlt uid
  | recvSub uid m => exact hcache.recvSub hlt uid m
  | recvBloom uid subSeqno bloom => exact hcache.recvBloom hlt uid subSeqno bloom
  | anyMatch s hash mem => exact (hcache.anyMatch s hash mem).1
  | anyQueue s hash routes mem => exact hcache.anyQueue s hash routes mem
  | gc => exact hcache.gc

theorem inv_after {es : List (ℕ × AnyOp)} (h : Run.AllOk (AnyDB.step kv) (Covered kv) init es) :
    (after kv es).Inv kv :=
  (Run.Reach.foldl .start h).invariant (inv_init kv) fun _ _ hinv hok => hinv.step hok

/-! ## The answers of a run -/

/-- The peer is taken from the set. -/
theorem mem_uids_of_getDestination {any : AnyMatch} {rand uid : ℕ}
    (h : any.getDestination rand = some uid) : uid ∈ any.uids :=
  BitSpace.mem_toList.1 (List.mem_of_getElem? h)

theorem exact_of_uids {any : AnyMatch} {s : Subject} {hash : UInt32}
    (h : ∀ uid, uid ∈ any.uids ↔ db.PeerMatches kv uid hash s) : db.Exact kv s hash any where
  set := h
  dest _ uid hdest := (h uid).1 (mem_uids_of_getDestination hdest)

/-- In a run that is covered all answers are exact. -/
theorem any_match_exact {es pre post : List (ℕ × AnyOp)} {elapsed : ℕ} {s : Subject}
    {hash : UInt32} {mem : ℕ → Bool} (h : Run.AllOk (AnyDB.step kv) (Covered kv) init es)
    (hes : es = pre ++ (elapsed, .anyMatch s hash mem) :: post) :
    ((after kv pre).tick elapsed).Exact kv s hash
      (((after kv pre).tick elapsed).anyMatch kv s hash mem).2 := by
  subst hes
  obtain ⟨hpre, hok⟩ := h.at_cons
  have hcache : ((after kv pre).tick elapsed).CacheValid kv := (inv_after hpre).cache
  exact exact_of_uids ((hcache.anyMatch s hash mem).2 hok)

/-! ## What is not covered -/

/-- Before any change of the time, the set of a new entry is what was in the memory. -/
theorem uids_anyMatch_of_zero (h : db.subUpdateMonoTime = 0) {hash : UInt32}
    (hnew : db.anyTab.ht hash = none) (s : Subject) (mem : ℕ → Bool) :
    (db.anyMatch kv s hash mem).2.uids = (AnyMatch.initAny s db.nextUid false mem).uids := by
  unfold anyMatch AnyMatchTab.getMatch
  simp only [hnew, h]
  rfl

theorem anyMatch_of_current {hash : UInt32} {any : AnyMatch} (hany : db.Current hash any)
    (hmax : db.nextUid ≤ any.maxUid) (hqueue : any.isQueue = false) (mem : ℕ → Bool) :
    (db.anyMatch kv any.sub hash mem).2 = any := by
  obtain ⟨hentry, hstamp, -⟩ := hany
  have hget : db.anyTab.getMatch kv any.sub hash db.nextUid false mem = (db.anyTab, any) := by
    unfold AnyMatchTab.getMatch
    rw [hentry]
    exact if_pos ⟨rfl, hmax, hqueue⟩
  unfold anyMatch
  rw [hget]
  exact congrArg Prod.snd (if_neg (Nat.not_lt_of_le hstamp.ge))

/-- The answer for a subject that is known does not have a peer that is authenticated after
it, though its bloom matches. -/
theorem not_exact_of_addAuthenticated (h : db.CacheValid kv) {hash : UInt32} {any : AnyMatch}
    (hany : db.Current hash any) (hmax : db.nextUid ≤ any.maxUid) {uid : ℕ} {n : MatchPeer}
    (huid : 1 ≤ uid) (hn : db.find uid = some n) (hauth : n.authenticated = false) {route : Bool}
    (hmatch : (n.addAuthenticated kv route).Matches kv hash any.sub) (mem : ℕ → Bool) :
    ¬ (db.addAuthenticated kv uid route).Exact kv any.sub hash
      ((db.addAuthenticated kv uid route).anyMatch kv any.sub hash mem).2 := by
  obtain ⟨hqueue, huids⟩ := h.ok hash any hany.1 hany.2.1 hany.2.2
  have hdb : db.addAuthenticated kv uid route = db.setPeer uid (n.addAuthenticated kv route) := by
    rw [addAuthenticated, hn]
  have hlen : (db.setPeer uid (n.addAuthenticated kv route)).nextUid ≤ any.maxUid := by
    rwa [nextUid, setPeer, List.length_set]
  have hsame : (db.setPeer uid (n.addAuthenticated kv route)).Current hash any := hany
  rw [hdb, anyMatch_of_current hsame hlen hqueue]
  intro hexact
  have hin := (hexact.set uid).2 ⟨huid, _, find_setPeer_self hn _, hmatch⟩
  obtain ⟨-, n', hn', hauth', -⟩ := (huids uid).1 hin
  rw [Option.mem_def, hn, Option.some.injEq] at hn'
  rw [← hn', hauth] at hauth'
  exact Bool.false_ne_true hauth'

end

/-! ## A run -/

/-- Subjects are matched by their hash, and patterns are prefixes. -/
def sampleKv : AnyKv where
  toPeerKv := BloomNet.prefixPeerKv
  matchSub b h _ := decide (0 < b.prefCount SUB_RTE ∧ h ∈ b.bits)
  headSize _ := 64
  words_headSize _ := ⟨8, rfl⟩
  mchLen := 11
  mchHash := 2

/-- A peer that subscribes to `A`. -/
def subscribed : List (ℕ × AnyOp) :=
  [(0, .addUser 10 1), (0, .addAuthenticated 1 true),
    (0, .recvSub 1 ⟨true, false, [65], 1, 7, none, [], 0, 0, true⟩)]

theorem allOk_subscribed : Run.AllOk (step sampleKv) (Covered sampleKv) init
    (subscribed ++ [(0, .anyMatch [65] 7 fun _ => true)]) :=
  ⟨trivial, fun _ _ _ _ _ hany => absurd rfl hany.2.2, trivial,
    (by decide : (after sampleKv subscribed).subUpdateMonoTime ≠ 0), trivial⟩

theorem any_match_exact_subscribed :
    ((after sampleKv subscribed).tick 0).Exact sampleKv [65] 7
      (((after sampleKv subscribed).tick 0).anyMatch sampleKv [65] 7 fun _ => true).2 :=
  any_match_exact allOk_subscribed rfl

/-- A peer that has no subscriptions. -/
def unsubscribed : List (ℕ × AnyOp) := [(0, .addUser 10 1), (0, .addAuthenticated 1 true)]

/-- The first answer is what was in the memory, and a peer that is not there is taken. -/
theorem first_answer_is_memory :
    let db := (after sampleKv unsubscribed).tick 0
    let any := (db.anyMatch sampleKv [65] 7 (· == 5)).2
    any.getDestination 0 = some 5 ∧ db.find 5 = none ∧ ¬ db.Exact sampleKv [65] 7 any := by
  have hdest : (((after sampleKv unsubscribed).tick 0).anyMatch sampleKv [65] 7
      (· == 5)).2.getDestination 0 = some 5 := by
    decide +kernel
  refine ⟨hdest, rfl, ?_⟩
  intro hexact
  obtain ⟨-, n, hn, -⟩ := hexact.dest 0 5 hdest
  exact absurd hn (Option.not_mem_none n)

end AnyDB

end Raims
