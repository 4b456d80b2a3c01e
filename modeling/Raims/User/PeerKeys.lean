import Raims.LinkState.AdjacencyChange
import Raims.Lib.SlotIndex

/-!
# Cached peer keys (`get_peer_key`)

The key of a pair of peers is derived from the key and the nonce of the one and the nonce
of the other. 1024 of them are kept in the slots of a ring, `PeerKeyCache`, with an index
by pair. The ring starts over at its first slot, and then, as for the first key of all,
the index is cleared before the slot is written.

`kv::IntHashTabT` and the derivation of keys, `kdf_peer_nonce`, are parameters.
-/

namespace Raims

/-- `PeerKeyHash` -/
structure PeerKeyHash where
  srcUid : UInt32
  destUid : UInt32
deriving DecidableEq

namespace PeerKeyHash

def u64 (h : PeerKeyHash) : UInt64 := (h.srcUid.toUInt64 <<< 32) ||| h.destUid.toUInt64

/-- `operator ==` -/
instance : BEq PeerKeyHash := ⟨fun a b => a.u64 == b.u64⟩

theorem toNat_u64 (h : PeerKeyHash) : h.u64.toNat = h.srcUid.toNat * 2 ^ 32 + h.destUid.toNat := by
  have hlt : h.srcUid.toNat <<< 32 < 2 ^ 64 := by
    have := h.srcUid.toNat_lt
    rw [Nat.shiftLeft_eq]
    omega
  have hshift : (h.srcUid.toUInt64 <<< 32).toNat = h.srcUid.toNat <<< 32 := Nat.mod_eq_of_lt hlt
  rw [u64, UInt64.toNat_or, hshift, UInt32.toNat_toUInt64,
    ← Nat.shiftLeft_add_eq_or_of_lt h.destUid.toNat_lt, Nat.shiftLeft_eq]

/-- Pairs are equal by their 64 bits only when both uids are. -/
theorem u64_inj {a b : PeerKeyHash} : a.u64 = b.u64 ↔ a = b := by
  constructor
  · intro h
    have hnat := congrArg UInt64.toNat h
    rw [toNat_u64, toNat_u64] at hnat
    have ha := a.destUid.toNat_lt
    have hb := b.destUid.toNat_lt
    have hsrc : a.srcUid = b.srcUid := UInt32.toNat_inj.1 (by omega)
    have hdest : a.destUid = b.destUid := UInt32.toNat_inj.1 (by omega)
    cases a
    cases b
    exact (PeerKeyHash.mk.injEq ..).mpr ⟨hsrc, hdest⟩
  · rintro rfl
    rfl

instance : LawfulBEq PeerKeyHash where
  eq_of_beq h := u64_inj.1 (eq_of_beq h)
  rfl := beq_self_eq_true (α := UInt64) _

end PeerKeyHash

namespace PeerKeys

/-- `HASH_DIGEST_SIZE` -/
def digestSize : ℕ := 64

/-- The 512 bits of a `HashDigest`. -/
abbrev Digest := Fin digestSize → UInt8

/-- What `get_peer_key2` reads of a `UserBridge`. -/
structure Bridge where
  peerKey : Digest
  nonce : Nonce

/-- `session_key`, `bridge_id.nonce` and `bridge_tab`, with an entry of `NULL` as `none`. -/
structure Peers where
  sessionKey : Digest
  nonce : Nonce
  bridgeTab : UInt32 → Option Bridge

/-- `MY_UID` -/
def myUid : UInt32 := 0

/-- `PeerKeyCache` -/
structure PeerKeyCache where
  off : ℕ
  cache : ℕ → UInt8

/-- `sizeof( cache )` -/
def cacheSize : ℕ := digestSize * 1024

def PeerKeyCache.newKey (c : PeerKeyCache) : ℕ × PeerKeyCache :=
  let ret := if c.off = cacheSize then 0 else c.off
  (ret, { c with off := ret + digestSize })

/-- `peer_key_ht` and `peer_keys` -/
structure KeyDB (τ : Type*) where
  ht : τ
  keys : PeerKeyCache

section Code

variable {τ : Type*} (o : HashTab τ PeerKeyHash ℕ) (kdf : Digest → Nonce → Nonce → Digest)
  (p : Peers)

/-- `get_peer_key2`; none when it would read an entry of `NULL`. -/
def getPeerKey2 (srcUid : UInt32) (destNonce : Nonce) : Option Digest :=
  if srcUid = myUid then some (kdf p.sessionKey p.nonce destNonce)
  else (p.bridgeTab srcUid).map fun n => kdf n.peerKey n.nonce destNonce

/-- What `get_peer_key2` computes for a pair. -/
def keyOf (h : PeerKeyHash) : Option Digest :=
  (p.bridgeTab h.destUid).bind fun n => getPeerKey2 kdf p h.srcUid n.nonce

def getPeerKey (db : KeyDB τ) (h : PeerKeyHash) : Option (Digest × KeyDB τ) :=
  match o.find db.ht h with
  | some off => some (SlotIndex.read digestSize db.keys.cache off, db)
  | none =>
    (keyOf kdf p h).map fun hash =>
      let (off, keys) := db.keys.newKey
      let ht :=
        if off = 0 then o.upsert (o.clearAll db.ht) h off
        else o.set db.ht h (o.pos db.ht h) off
      (hash, ⟨ht, { keys with cache := SlotIndex.write keys.cache off hash }⟩)

/-- The keys that a sequence of calls returns, and the state after it. -/
def getPeerKeys (db : KeyDB τ) : List PeerKeyHash → Option (List Digest × KeyDB τ)
  | [] => some ([], db)
  | h :: hs =>
    (getPeerKey o kdf p db h).bind fun r =>
      (getPeerKeys r.2 hs).map fun rs => (r.1 :: rs.1, rs.2)

/-- The cache as `UserDB` makes it: no offset is used, its bytes are any. -/
def KeyDB.init (cache : ℕ → UInt8) : KeyDB τ := ⟨o.empty, ⟨0, cache⟩⟩

end Code

variable {τ : Type*} {o : HashTab τ PeerKeyHash ℕ} {kdf : Digest → Nonce → Nonce → Digest}
  {p : Peers} {db : KeyDB τ} {h : PeerKeyHash}

theorem newKey_of_eq {c : PeerKeyCache} (hoff : c.off = cacheSize) :
    c.newKey = (0, { c with off := 0 + digestSize }) := by
  rw [PeerKeyCache.newKey, if_pos hoff]

theorem newKey_of_ne {c : PeerKeyCache} (hoff : c.off ≠ cacheSize) :
    c.newKey = (c.off, { c with off := c.off + digestSize }) := by
  rw [PeerKeyCache.newKey, if_neg hoff]

/-- Offsets are multiples of the size of a slot and stay in the cache; the index is right
about what lies before `off`. -/
structure Kept (o : HashTab τ PeerKeyHash ℕ) (kdf : Digest → Nonce → Nonce → Digest) (p : Peers)
    (db : KeyDB τ) : Prop where
  off_dvd : digestSize ∣ db.keys.off
  off_le : db.keys.off ≤ cacheSize
  indexes : SlotIndex.Indexes (o.find db.ht) db.keys.cache digestSize db.keys.off (keyOf kdf p)

theorem kept_init (ho : o.Lawful) (cache : ℕ → UInt8) : Kept o kdf p (KeyDB.init o cache) where
  off_dvd := ⟨0, rfl⟩
  off_le := Nat.zero_le _
  indexes := .of_forall_none ho.find_empty

/-- The state after a key is derived and put in a slot. -/
theorem getPeerKey_of_none {hash : Digest} (hfind : o.find db.ht h = none)
    (hkey : keyOf kdf p h = some hash) :
    getPeerKey o kdf p db h = some (hash,
      ⟨if db.keys.newKey.1 = 0 then o.upsert (o.clearAll db.ht) h db.keys.newKey.1
        else o.set db.ht h (o.pos db.ht h) db.keys.newKey.1,
      { db.keys.newKey.2 with
        cache := SlotIndex.write db.keys.newKey.2.cache db.keys.newKey.1 hash }⟩) := by
  rw [getPeerKey, hfind, hkey]
  rfl

/-- The first slot, of a new ring or of one that starts over. -/
theorem Kept.insert_first (ho : o.Lawful) {hash : Digest} (hkey : keyOf kdf p h = some hash)
    (ht : τ) (cache : ℕ → UInt8) :
    Kept o kdf p ⟨o.upsert (o.clearAll ht) h 0,
      ⟨0 + digestSize, SlotIndex.write cache 0 hash⟩⟩ where
  off_dvd := ⟨1, rfl⟩
  off_le := by
    show 0 + digestSize ≤ cacheSize
    decide
  indexes := by
    refine .insert (.of_forall_none (ho.find_clearAll ht)) ?_ hkey
    intro k
    simp only [ho.find_upsert, beq_iff_eq]

theorem Kept.insert_next (ho : o.Lawful) (hdb : Kept o kdf p db) {hash : Digest}
    (hfind : o.find db.ht h = none) (hkey : keyOf kdf p h = some hash)
    (hoff : db.keys.off ≠ cacheSize) :
    Kept o kdf p ⟨o.set db.ht h (o.pos db.ht h) db.keys.off,
      ⟨db.keys.off + digestSize, SlotIndex.write db.keys.cache db.keys.off hash⟩⟩ where
  off_dvd := Nat.dvd_add hdb.off_dvd (Nat.dvd_refl _)
  off_le := by
    obtain ⟨n, hn⟩ := hdb.off_dvd
    have hle := hdb.off_le
    change db.keys.off = 64 * n at hn
    change db.keys.off ≤ 64 * 1024 at hle
    change db.keys.off ≠ 64 * 1024 at hoff
    show db.keys.off + 64 ≤ 64 * 1024
    omega
  indexes := by
    refine .insert hdb.indexes ?_ hkey
    intro k
    simp only [ho.find_set _ _ _ _ hfind, beq_iff_eq]

/-- One call returns what `get_peer_key2` computes, from the cache or not. -/
theorem getPeerKey_spec (ho : o.Lawful) (hdb : Kept o kdf p db) (h : PeerKeyHash) :
    (getPeerKey o kdf p db h).map Prod.fst = keyOf kdf p h ∧
      ∀ r, getPeerKey o kdf p db h = some r → Kept o kdf p r.2 := by
  cases hfind : o.find db.ht h with
  | some off =>
    have hget : getPeerKey o kdf p db h =
        some (SlotIndex.read digestSize db.keys.cache off, db) := by
      rw [getPeerKey, hfind]
    constructor
    · rw [hget, hdb.indexes.value hfind]
      rfl
    · intro r hr
      obtain rfl := Option.some.inj (hget.symm.trans hr)
      exact hdb
  | none =>
    cases hkey : keyOf kdf p h with
    | none =>
      have hget : getPeerKey o kdf p db h = none := by
        rw [getPeerKey, hfind, hkey]
        rfl
      constructor
      · rw [hget]
        rfl
      · intro r hr
        exact absurd (hget.symm.trans hr) (Option.some_ne_none r).symm
    | some hash =>
      have hget := getPeerKey_of_none hfind hkey
      constructor
      · rw [hget]
        rfl
      · intro r hr
        obtain rfl := Option.some.inj (hget.symm.trans hr)
        by_cases hoff : db.keys.off = cacheSize
        · rw [newKey_of_eq hoff]
          exact .insert_first ho hkey _ _
        · rw [newKey_of_ne hoff]
          by_cases hzero : db.keys.off = 0
          · rw [hzero]
            exact .insert_first ho hkey _ _
          · rw [if_neg hzero]
            exact hdb.insert_next ho hfind hkey hoff

theorem getPeerKeys_spec (ho : o.Lawful) (hdb : Kept o kdf p db) (hs : List PeerKeyHash) :
    (getPeerKeys o kdf p db hs).map Prod.fst = hs.mapM (keyOf kdf p) ∧
      ∀ r, getPeerKeys o kdf p db hs = some r → Kept o kdf p r.2 := by
  induction hs generalizing db with
  | nil =>
    refine ⟨rfl, fun r hr => ?_⟩
    obtain rfl := Option.some.inj hr
    exact hdb
  | cons h hs ih =>
    obtain ⟨hret, hkept⟩ := getPeerKey_spec ho hdb h
    rw [getPeerKeys, List.mapM_cons, ← hret]
    cases hget : getPeerKey o kdf p db h with
    | none => exact ⟨rfl, fun r hr => absurd hr (Option.some_ne_none r).symm⟩
    | some r =>
      obtain ⟨hrest, hlast⟩ := ih (hkept r hget)
      constructor
      · rw [Option.map_some, ← hrest]
        show Option.map Prod.fst ((getPeerKeys o kdf p r.2 hs).map _) = _
        cases getPeerKeys o kdf p r.2 hs <;> rfl
      · intro r' hr'
        obtain ⟨rs, hrs, rfl⟩ := Option.map_eq_some_iff.1 hr'
        exact hlast rs hrs

/-- In any sequence of calls, each returns what `get_peer_key2` computes for its pair, and
after it no two pairs have the same slot. -/
theorem getPeerKeys_eq_keyOf (ho : o.Lawful) (kdf : Digest → Nonce → Nonce → Digest) (p : Peers)
    (cache : ℕ → UInt8) (hs : List PeerKeyHash) :
    (getPeerKeys o kdf p (KeyDB.init o cache) hs).map Prod.fst = hs.mapM (keyOf kdf p) ∧
      ∀ r, getPeerKeys o kdf p (KeyDB.init o cache) hs = some r →
        ∀ h h' off, o.find r.2.ht h = some off → o.find r.2.ht h' = some off → h = h' := by
  obtain ⟨hret, hkept⟩ := getPeerKeys_spec ho (kept_init ho cache : Kept o kdf p _) hs
  refine ⟨hret, fun r hr h h' off hoff hoff' => ?_⟩
  by_contra hne
  have hsize : digestSize = 64 := rfl
  rcases (hkept r hr).indexes.apart hoff hoff' hne with hle | hle <;> omega

/-- A table that is a function. -/
def funTab : HashTab (PeerKeyHash → Option ℕ) PeerKeyHash ℕ where
  empty := fun _ => none
  find t k := t k
  pos _ _ := 0
  clearAll _ := fun _ => none
  upsert t k v := Function.update t k (some v)
  set t k _ v := Function.update t k (some v)

theorem lawful_funTab : funTab.Lawful where
  find_empty _ := rfl
  find_clearAll _ _ := rfl
  find_upsert t k v k' := by
    simp only [funTab, Function.update_apply, beq_iff_eq]
  find_set t k v k' _ := by
    simp only [funTab, Function.update_apply, beq_iff_eq]

def twoPeers : Peers where
  sessionKey := fun _ => 1
  nonce := 2
  bridgeTab uid :=
    if uid = 1 then some ⟨fun _ => 3, 4⟩
    else if uid = 2 then some ⟨fun _ => 5, 6⟩
    else none

/-- A table of functions, two peers, and a pair that is asked for twice. -/
theorem getPeerKeys_eq_keyOf_two :
    (getPeerKeys funTab (fun k n m i => k i + (UInt8.ofNat n.toNat) * 16 + UInt8.ofNat m.toNat)
        twoPeers (KeyDB.init funTab fun _ => 0) [⟨0, 1⟩, ⟨1, 2⟩, ⟨0, 1⟩]).map Prod.fst =
      some [fun _ => 37, fun _ => 73, fun _ => 37] :=
  (getPeerKeys_eq_keyOf lawful_funTab _ twoPeers _ [⟨0, 1⟩, ⟨1, 2⟩, ⟨0, 1⟩]).1.trans rfl

end PeerKeys

end Raims
