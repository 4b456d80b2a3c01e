import Raims.Sub.MatchSeqno
import Raims.Sub.SeqnoGenerations
import Mathlib.Algebra.BigOperators.Group.Multiset.Basic
import Mathlib.Algebra.Ring.Nat

/-!
# The memory of the window

An entry that has seen more than one publisher owns a table of their records. The
window counts the memory of these tables for each generation, and a flip releases the
tables of the oldest one if its count is not zero. The counts are not changed when an
entry takes its table to the newest generation, when a subscription that was started
again releases it, or when the entry is removed, so they are right only as long as none
of this happens to an entry that owns one.
-/

namespace Raims

/-- `mem_size` of the table of an entry, if it owns one. -/
def SubSeqno.htBytes (kv : SeqnoKv) (s : SubSeqno) : ℕ :=
  s.seqnoHt.elim 0 fun ht => (kv.htSize ht).toNat

namespace SeqnoTab

/-- The memory of the tables that the entries of a generation own. -/
def htTotal (kv : SeqnoKv) (tab : RouteVec SubSeqno) : ℕ :=
  ((FiniteMap.entries tab).map fun e => e.2.htBytes kv).sum

/-- The counts are the memory of the tables. -/
structure Sized (kv : SeqnoKv) (t : SeqnoTab) : Prop where
  tab : t.seqnoHtSize.toNat = htTotal kv t.tab
  tabOld : t.oldHtSize.toNat = htTotal kv t.tabOld
  tabOld2 : t.oldHtSize2.toNat = htTotal kv t.tabOld2

end SeqnoTab

/-- A node, and whether a count went below zero or a flip dropped a table that was not
released. -/
structure SeqnoLedger where
  node : SubNode
  underflowed : Bool
  leaked : Bool

namespace SeqnoLedger

open SubNode (Event recvArgs)

variable (kv : SeqnoKv)

def start (db : SubDB) (curTime windowIval : UInt64) : SeqnoLedger :=
  ⟨⟨db, .new curTime windowIval⟩, false, false⟩

/-- `seqno_ht_size - sz` is below zero. -/
def underflows (n : SubNode) : Event → Bool
  | .recv pub stamp =>
    match n.seqnoTab.find pub.key with
    | none => false
    | some s =>
      !n.isTrailing pub (recvArgs pub stamp) && n.keeps kv pub.key (.recv pub stamp) &&
        s.lastUid ≠ pub.uid && n.seqnoTab.seqnoHtSize.toNat < s.htBytes kv
  | _ => false

/-- The loop of `flip` that releases the tables is passed over, and there is one. -/
def leaks (n : SubNode) : Event → Bool
  | .flip winSize winCount _ doubleTime quadTime =>
    n.seqnoTab.flips kv winSize winCount doubleTime quadTime && n.seqnoTab.oldHtSize2 = 0 &&
      n.seqnoTab.tabOld2.entries.any fun e => e.2.seqnoHt.isSome
  | _ => false

def step (subKv : Kv) (l : SeqnoLedger) (e : Event) : SeqnoLedger :=
  ⟨l.node.step kv subKv e, l.underflowed || underflows kv l.node e,
    l.leaked || leaks kv l.node e⟩

structure Exact (l : SeqnoLedger) : Prop where
  sized : l.node.seqnoTab.Sized kv
  underflowed : l.underflowed = false
  leaked : l.leaked = false

/-- The message goes to an entry that owns no table, or it leaves the table of an entry
of the newest generation with it. -/
def TableStays (n : SubNode) : Event → Prop
  | .recv pub stamp =>
    n.isTrailing pub (recvArgs pub stamp) = true ∨
      ∀ s, n.seqnoTab.find pub.key = some s → s.seqnoHt = none ∨
        (n.seqnoTab.tab.lookup pub.key ≠ none ∧ n.keeps kv pub.key (.recv pub stamp) = true)
  | _ => True

/-- The tables of a generation are in memory. -/
def FitsMemory (subKv : Kv) (n : SubNode) (e : Event) : Prop :=
  SeqnoTab.htTotal kv (n.step kv subKv e).seqnoTab.tab < 2 ^ 64

def Keeps (subKv : Kv) (l : SeqnoLedger) (e : Event) : Prop :=
  TableStays kv l.node e ∧ FitsMemory kv subKv l.node e

end SeqnoLedger

/-! ## Totals -/

namespace SeqnoTab

variable {kv : SeqnoKv} {tab : RouteVec SubSeqno} {key : RouteKey} {s : SubSeqno}

theorem htBytes_of_none (h : s.seqnoHt = none) : s.htBytes kv = 0 := by
  rw [SubSeqno.htBytes, h]
  rfl

theorem htBytes_pos (hpos : ∀ ht, 0 < kv.htSize ht) (h : s.seqnoHt ≠ none) : 0 < s.htBytes kv := by
  cases hht : s.seqnoHt with
  | none => exact absurd hht h
  | some ht =>
    rw [SubSeqno.htBytes, hht]
    exact UInt64.lt_iff_toNat_lt.1 (hpos ht)

theorem htTotal_insert (tab : RouteVec SubSeqno) (key : RouteKey) (s : SubSeqno) :
    htTotal kv (tab.insert key s) = s.htBytes kv + htTotal kv (tab.erase key) := by
  rw [htTotal, FiniteMap.entries_insert, Multiset.map_cons, Multiset.sum_cons]
  rfl

theorem htTotal_of_lookup (kv : SeqnoKv) (h : tab.lookup key = some s) :
    htTotal kv tab = s.htBytes kv + htTotal kv (tab.erase key) := by
  rw [htTotal, FiniteMap.entries_of_lookup h, Multiset.map_cons, Multiset.sum_cons]
  rfl

theorem htTotal_erase_of_none (h : tab.lookup key = none) :
    htTotal kv (tab.erase key) = htTotal kv tab := by
  rw [htTotal, FiniteMap.erase_of_lookup_none h]
  rfl

/-- An entry that owns no table does not count. -/
theorem htTotal_erase_of_bare (h : ∀ s, tab.lookup key = some s → s.seqnoHt = none) :
    htTotal kv (tab.erase key) = htTotal kv tab := by
  cases hs : tab.lookup key with
  | none => exact htTotal_erase_of_none hs
  | some s => rw [htTotal_of_lookup kv hs, htBytes_of_none (h s hs), Nat.zero_add]

theorem htTotal_insert_of_bare (h : s.seqnoHt = none) :
    htTotal kv (tab.insert key s) = htTotal kv (tab.erase key) := by
  rw [htTotal_insert, htBytes_of_none h, Nat.zero_add]

/-- A generation without memory has no tables. -/
theorem bare_of_htTotal_eq_zero (hpos : ∀ ht, 0 < kv.htSize ht) (h : htTotal kv tab = 0)
    (hs : tab.lookup key = some s) : s.seqnoHt = none := by
  by_contra hne
  have hbytes := htBytes_pos hpos hne
  rw [htTotal_of_lookup kv hs] at h
  omega

end SeqnoTab

/-! ## Copies -/

namespace SeqnoTab

variable {kv : SeqnoKv} {t : SeqnoTab} {key k : RouteKey} {s : SubSeqno}

/-- Only the newest copy of a subject owns a table. -/
structure Owned (t : SeqnoTab) : Prop where
  old : ∀ key, t.tab.lookup key ≠ none → ∀ p, t.tabOld.lookup key = some p → p.seqnoHt = none
  old2 : ∀ key, t.tab.lookup key ≠ none → ∀ p, t.tabOld2.lookup key = some p → p.seqnoHt = none
  old_old2 : ∀ key, t.tabOld.lookup key ≠ none →
    ∀ p, t.tabOld2.lookup key = some p → p.seqnoHt = none

/-- No copy of the subject owns a table. -/
def Bare (t : SeqnoTab) (key : RouteKey) : Prop := ∀ s, t.Holds key s → s.seqnoHt = none

theorem Owned.bare (h : t.Owned) (hfind : ∀ s, t.find key = some s → s.seqnoHt = none) :
    t.Bare key := by
  intro s hs
  unfold find at hfind
  cases h1 : t.tab.lookup key with
  | some p =>
    rw [h1] at hfind
    rcases hs with hs | hs | hs
    · exact hfind s (h1.symm.trans hs)
    · exact h.old key (by simp [h1]) s hs
    · exact h.old2 key (by simp [h1]) s hs
  | none =>
    rw [h1] at hfind
    cases h2 : t.tabOld.lookup key with
    | some p =>
      rw [h2] at hfind
      rcases hs with hs | hs | hs
      · rw [h1] at hs
        cases hs
      · exact hfind s (h2.symm.trans hs)
      · exact h.old_old2 key (by simp [h2]) s hs
    | none =>
      rw [h2] at hfind
      rcases hs with hs | hs | hs
      · rw [h1] at hs
        cases hs
      · rw [h2] at hs
        cases hs
      · exact hfind s hs

theorem Bare.upsert (h : t.Bare key) : (t.upsert key).1.Bare key := by
  intro s hs
  rcases upsert_holds hs with hs | ⟨s₀, hs₀, rfl⟩
  · exact h s hs
  · rfl

/-- An upsert leaves copies that own nothing in the older generations. -/
theorem Owned.upsert_copies (h : t.Owned) (key : RouteKey) :
    (∀ p, (t.upsert key).1.tabOld.lookup key = some p → p.seqnoHt = none) ∧
      ∀ p, (t.upsert key).1.tabOld2.lookup key = some p → p.seqnoHt = none := by
  cases h1 : t.tab.lookup key with
  | some p =>
    have hup : (t.upsert key).1 = t := by simp [upsert, h1]
    rw [hup]
    exact ⟨h.old key (by simp [h1]), h.old2 key (by simp [h1])⟩
  | none =>
    cases h2 : t.tabOld.lookup key with
    | some p =>
      have hup : (t.upsert key).1 =
          { t with tab := t.tab.insert key p, tabOld := t.tabOld.insert key p.copied } := by
        simp [upsert, h1, h2]
      rw [hup]
      constructor
      · intro q hq
        rw [AList.lookup_insert] at hq
        obtain rfl := Option.some.inj hq
        rfl
      · exact h.old_old2 key (by simp [h2])
    | none =>
      cases h3 : t.tabOld2.lookup key with
      | some p =>
        have hup : (t.upsert key).1 =
            { t with tab := t.tab.insert key p, tabOld2 := t.tabOld2.insert key p.copied } := by
          simp [upsert, h1, h2, h3]
        rw [hup]
        constructor
        · intro q hq
          rw [h2] at hq
          cases hq
        · intro q hq
          rw [AList.lookup_insert] at hq
          obtain rfl := Option.some.inj hq
          rfl
      | none =>
        have hup : (t.upsert key).1 = t := by simp [upsert, h1, h2, h3]
        rw [hup]
        constructor
        · intro q hq
          rw [h2] at hq
          cases hq
        · intro q hq
          rw [h3] at hq
          cases hq

theorem Owned.upsert (h : t.Owned) (key : RouteKey) : (t.upsert key).1.Owned := by
  have hcopies := h.upsert_copies key
  constructor
  · intro k htab p hp
    by_cases hk : k = key
    · subst hk
      exact hcopies.1 p hp
    · obtain ⟨h1, h2, -⟩ := t.upsert_lookup_of_ne hk
      rw [h1] at htab
      rw [h2] at hp
      exact h.old k htab p hp
  · intro k htab p hp
    by_cases hk : k = key
    · subst hk
      exact hcopies.2 p hp
    · obtain ⟨h1, -, h3⟩ := t.upsert_lookup_of_ne hk
      rw [h1] at htab
      rw [h3] at hp
      exact h.old2 k htab p hp
  · intro k htab p hp
    by_cases hk : k = key
    · subst hk
      exact hcopies.2 p hp
    · obtain ⟨-, h2, h3⟩ := t.upsert_lookup_of_ne hk
      rw [h2] at htab
      rw [h3] at hp
      exact h.old_old2 k htab p hp

theorem Owned.upsert_set (h : t.Owned) (key : RouteKey) (s : SubSeqno) :
    ((t.upsert key).1.set key s).Owned := by
  have hup := h.upsert key
  have hcopies := h.upsert_copies key
  constructor
  · intro k htab p hp
    by_cases hk : k = key
    · subst hk
      exact hcopies.1 p hp
    · exact hup.old k (by rwa [set, AList.lookup_insert_ne hk] at htab) p hp
  · intro k htab p hp
    by_cases hk : k = key
    · subst hk
      exact hcopies.2 p hp
    · exact hup.old2 k (by rwa [set, AList.lookup_insert_ne hk] at htab) p hp
  · exact hup.old_old2

/-- Fewer entries own no more. -/
theorem Owned.mono {t' : SeqnoTab} (h : t.Owned)
    (htab : ∀ k q, t'.tab.lookup k = some q → t.tab.lookup k = some q)
    (hold : ∀ k q, t'.tabOld.lookup k = some q → t.tabOld.lookup k = some q)
    (hold2 : ∀ k q, t'.tabOld2.lookup k = some q → t.tabOld2.lookup k = some q) : t'.Owned := by
  have hne {tab tab' : RouteVec SubSeqno}
      (hsub : ∀ k q, tab'.lookup k = some q → tab.lookup k = some q) {k : RouteKey}
      (hk : tab'.lookup k ≠ none) : tab.lookup k ≠ none := by
    obtain ⟨q, hq⟩ := Option.ne_none_iff_exists'.1 hk
    rw [hsub k q hq]
    simp
  constructor
  · intro k hk p hp
    exact h.old k (hne htab hk) p (hold k p hp)
  · intro k hk p hp
    exact h.old2 k (hne htab hk) p (hold2 k p hp)
  · intro k hk p hp
    exact h.old_old2 k (hne hold hk) p (hold2 k p hp)

theorem Owned.remove (h : t.Owned) (key : RouteKey) (which : ℕ) : (t.remove key which).Owned := by
  have herase (tab : RouteVec SubSeqno) (p : Prop) [Decidable p] (k : RouteKey) (q : SubSeqno)
      (hq : (if p then tab.erase key else tab).lookup k = some q) : tab.lookup k = some q := by
    split at hq
    · exact lookup_erase_cases hq
    · exact hq
  apply h.mono
  · intro k q hq
    exact lookup_erase_cases hq
  · exact herase _ _
  · exact herase _ _

theorem Owned.turned (h : t.Owned) (curTime : UInt64) : (t.turned curTime).Owned := by
  constructor
  · intro k hk
    exact absurd rfl hk
  · intro k hk
    exact absurd rfl hk
  · exact h.old

theorem owned_new (curTime windowIval : UInt64) : (SeqnoTab.new curTime windowIval).Owned := by
  constructor
  · intro k hk
    exact absurd rfl hk
  · intro k hk
    exact absurd rfl hk
  · intro k hk
    exact absurd rfl hk

/-! ## The counts under the operations -/

/-- An upsert changes no count. -/
theorem upsert_sizes (t : SeqnoTab) (key : RouteKey) :
    (t.upsert key).1.seqnoHtSize = t.seqnoHtSize ∧ (t.upsert key).1.oldHtSize = t.oldHtSize ∧
      (t.upsert key).1.oldHtSize2 = t.oldHtSize2 := by
  unfold upsert
  split
  · exact ⟨rfl, rfl, rfl⟩
  · split
    · exact ⟨rfl, rfl, rfl⟩
    · split
      · exact ⟨rfl, rfl, rfl⟩
      · exact ⟨rfl, rfl, rfl⟩

/-- An upsert of an entry that owns no table, or of the newest generation. -/
theorem Sized.upsert (h : t.Sized kv) (hkey : t.Bare key ∨ t.tab.lookup key ≠ none) :
    (t.upsert key).1.Sized kv := by
  unfold SeqnoTab.upsert
  cases h1 : t.tab.lookup key with
  | some p => exact h
  | none =>
    have hbare : t.Bare key := hkey.resolve_right fun hne => hne h1
    cases h2 : t.tabOld.lookup key with
    | some p =>
      have hp : p.seqnoHt = none := hbare p (.inr (.inl h2))
      constructor
      · show t.seqnoHtSize.toNat = htTotal kv (t.tab.insert key p)
        rw [htTotal_insert_of_bare hp, htTotal_erase_of_none h1, h.tab]
      · show t.oldHtSize.toNat = htTotal kv (t.tabOld.insert key p.copied)
        rw [htTotal_insert_of_bare rfl, h.tabOld, htTotal_of_lookup kv h2, htBytes_of_none hp,
          Nat.zero_add]
      · exact h.tabOld2
    | none =>
      cases h3 : t.tabOld2.lookup key with
      | some p =>
        have hp : p.seqnoHt = none := hbare p (.inr (.inr h3))
        constructor
        · show t.seqnoHtSize.toNat = htTotal kv (t.tab.insert key p)
          rw [htTotal_insert_of_bare hp, htTotal_erase_of_none h1, h.tab]
        · exact h.tabOld
        · show t.oldHtSize2.toNat = htTotal kv (t.tabOld2.insert key p.copied)
          rw [htTotal_insert_of_bare rfl, h.tabOld2, htTotal_of_lookup kv h3,
            htBytes_of_none hp, Nat.zero_add]
      | none => exact h

/-- An entry without a table takes the place of one without a table. -/
theorem Sized.set (h : t.Sized kv) (hbare : t.Bare key) (hs : s.seqnoHt = none) :
    (t.set key s).Sized kv := by
  constructor
  · show t.seqnoHtSize.toNat = htTotal kv (t.tab.insert key s)
    rw [htTotal_insert_of_bare hs, htTotal_erase_of_bare fun p hp => hbare p (.inl hp), h.tab]
  · exact h.tabOld
  · exact h.tabOld2

theorem Sized.remove (h : t.Sized kv) (hbare : t.Bare key) (which : ℕ) :
    (t.remove key which).Sized kv := by
  have herase (tab : RouteVec SubSeqno) (p : Prop) [Decidable p]
      (htab : ∀ s, tab.lookup key = some s → s.seqnoHt = none) :
      htTotal kv (if p then tab.erase key else tab) = htTotal kv tab := by
    split
    · exact htTotal_erase_of_bare htab
    · rfl
  constructor
  · show t.seqnoHtSize.toNat = htTotal kv (t.tab.erase key)
    rw [htTotal_erase_of_bare fun p hp => hbare p (.inl hp), h.tab]
  · show t.oldHtSize.toNat = htTotal kv (if _ then _ else _)
    rw [herase _ _ fun p hp => hbare p (.inr (.inl hp)), h.tabOld]
  · show t.oldHtSize2.toNat = htTotal kv (if _ then _ else _)
    rw [herase _ _ fun p hp => hbare p (.inr (.inr hp)), h.tabOld2]

theorem Sized.turned (h : t.Sized kv) (curTime : UInt64) : (t.turned curTime).Sized kv :=
  ⟨rfl, h.tab, h.tabOld⟩

/-- An entry of an older generation that owns a table leaves its count too large. -/
theorem Sized.bare_of_moved (hpos : ∀ ht, 0 < kv.htSize ht) (h : t.Sized kv)
    (hs : t.find key = some s) (htab : t.tab.lookup key = none) {t' : SeqnoTab}
    (h' : t'.Sized kv) (hold : htTotal kv t'.tabOld = htTotal kv (t.upsert key).1.tabOld)
    (hold2 : htTotal kv t'.tabOld2 = htTotal kv (t.upsert key).1.tabOld2)
    (hsz : t'.oldHtSize = t.oldHtSize) (hsz2 : t'.oldHtSize2 = t.oldHtSize2) :
    s.seqnoHt = none := by
  by_contra hne
  have hbytes := htBytes_pos hpos hne
  unfold find at hs
  rw [htab] at hs
  cases h2 : t.tabOld.lookup key with
  | some p =>
    rw [h2] at hs
    obtain rfl := Option.some.inj hs
    have hup : (t.upsert key).1.tabOld = t.tabOld.insert key p.copied := by
      simp [SeqnoTab.upsert, htab, h2]
    have hbefore := h.tabOld
    have hafter := h'.tabOld
    rw [hsz, hold, hup, htTotal_insert_of_bare rfl, hbefore, htTotal_of_lookup kv h2] at hafter
    omega
  | none =>
    rw [h2] at hs
    have h3 : t.tabOld2.lookup key = some s := hs
    have hup : (t.upsert key).1.tabOld2 = t.tabOld2.insert key s.copied := by
      simp [SeqnoTab.upsert, htab, h2, h3]
    have hbefore := h.tabOld2
    have hafter := h'.tabOld2
    rw [hsz2, hold2, hup, htTotal_insert_of_bare rfl, hbefore, htTotal_of_lookup kv h3] at hafter
    omega

end SeqnoTab

/-! ## A message -/

namespace SeqnoTab

variable {kv : SeqnoKv} {t : SeqnoTab} {pub : MsgFramePublish} {s s' : SubSeqno}

/-- The memory of a table, as `match_seqno` counts it. -/
theorem toNat_htSize (s : SubSeqno) : (s.seqnoHt.elim 0 kv.htSize).toNat = s.htBytes kv := by
  rw [SubSeqno.htBytes]
  cases s.seqnoHt <;> rfl

/-- A message to an entry of the newest generation counts what its table grows by. -/
theorem Sized.matchEntry (h : t.Sized kv) (hs : t.tab.lookup pub.key = some s)
    {time : UInt64} {ctx : SeqnoArgs} {r : SubNode.Result}
    (hr : r = SubNode.matchEntry kv pub time t s' ctx) (hht : s'.seqnoHt = s.seqnoHt)
    (hfits : htTotal kv r.seqnoTab.tab < 2 ^ 64) : r.seqnoTab.Sized kv := by
  subst hr
  have hbytes : s'.htBytes kv = s.htBytes kv := by rw [SubSeqno.htBytes, SubSeqno.htBytes, hht]
  have htab : t.seqnoHtSize.toNat = s.htBytes kv + htTotal kv (t.tab.erase pub.key) :=
    h.tab.trans (htTotal_of_lookup kv hs)
  have hafter : htTotal kv (SubNode.matchEntry kv pub time t s' ctx).seqnoTab.tab =
      (s'.receive kv pub.uid pub.seqno time ctx).1.htBytes kv +
        htTotal kv (t.tab.erase pub.key) := htTotal_insert _ _ _
  refine ⟨?_, h.tabOld, h.tabOld2⟩
  rw [hafter]
  rw [hafter] at hfits
  simp only [SubNode.matchEntry]
  by_cases huid : s'.lastUid = pub.uid
  · -- the table is not looked at
    have hsame : (s'.receive kv pub.uid pub.seqno time ctx).1.seqnoHt = s'.seqnoHt := by
      rw [SubSeqno.receive, if_neg (not_not.2 huid)]
      exact (SubSeqno.sequence_keeps kv s' pub.seqno time ctx).2
    rw [if_neg (not_not.2 huid), htab, SubSeqno.htBytes, SubSeqno.htBytes, hsame, hht]
  · rw [if_pos huid]
    have hle : s'.seqnoHt.elim 0 kv.htSize ≤ t.seqnoHtSize := by
      rw [UInt64.le_iff_toNat_le, toNat_htSize, htab, hbytes]
      exact Nat.le_add_right _ _
    rw [UInt64.toNat_add, UInt64.toNat_sub_of_le _ _ hle, toNat_htSize, toNat_htSize, htab, hbytes,
      Nat.add_sub_cancel_left, Nat.add_comm, Nat.mod_eq_of_lt hfits]

end SeqnoTab

/-! ## Runs -/

namespace SeqnoLedger

open SubNode (Event recvArgs)

variable {kv : SeqnoKv} {subKv : Kv} {l : SeqnoLedger} {n : SubNode} {pub : MsgFramePublish}
  {stamp : UInt64}

structure Inv (kv : SeqnoKv) (l : SeqnoLedger) : Prop where
  exact : l.Exact kv
  owned : l.node.seqnoTab.Owned

theorem inv_start (db : SubDB) (curTime windowIval : UInt64) :
    Inv kv (start db curTime windowIval) :=
  ⟨⟨⟨rfl, rfl, rfl⟩, rfl, rfl⟩, SeqnoTab.owned_new _ _⟩

theorem owned_recv (h : n.seqnoTab.Owned) (pub : MsgFramePublish) (stamp : UInt64) :
    (n.recv kv pub stamp).seqnoTab.Owned := by
  have hset (s : SubSeqno) (sz : UInt64) :
      SeqnoTab.Owned { (n.seqnoTab.upsert pub.key).1.set pub.key s with seqnoHtSize := sz } :=
    (h.upsert_set pub.key s).mono (fun _ _ h => h) (fun _ _ h => h) fun _ _ h => h
  rcases SubNode.recv_branches kv n pub stamp with ⟨-, hr⟩ | ⟨-, ⟨-, -, hr⟩ | ⟨-, -, hr⟩ |
    ⟨s, -, -, -, -, hr⟩ | ⟨s, -, -, hr⟩⟩
  · rw [hr]
    exact h
  · rw [hr]
    exact (h.upsert _).remove _ _
  · rw [hr]
    exact h.upsert_set _ _
  · rw [hr]
    exact hset _ _
  · rw [hr]
    exact hset _ _

/-- The entry that a message does not keep owns no table. -/
theorem TableStays.bare (howned : n.seqnoTab.Owned) (hstays : TableStays kv n (.recv pub stamp))
    (htrail : n.isTrailing pub (recvArgs pub stamp) = false)
    (hkeep : n.keeps kv pub.key (.recv pub stamp) = false) : n.seqnoTab.Bare pub.key := by
  apply howned.bare
  intro s hs
  rcases hstays with htrail' | hstays
  · rw [htrail] at htrail'
    cases htrail'
  · rcases hstays s hs with hbare | ⟨-, hkeep'⟩
    · exact hbare
    · rw [hkeep] at hkeep'
      cases hkeep'

theorem TableStays.bare_or_newest (howned : n.seqnoTab.Owned)
    (hstays : TableStays kv n (.recv pub stamp))
    (htrail : n.isTrailing pub (recvArgs pub stamp) = false) {s : SubSeqno}
    (hs : n.seqnoTab.find pub.key = some s) :
    n.seqnoTab.Bare pub.key ∨ n.seqnoTab.tab.lookup pub.key ≠ none := by
  rcases hstays with htrail' | hstays
  · rw [htrail] at htrail'
    cases htrail'
  · rcases hstays s hs with hbare | ⟨hnewest, -⟩
    · left
      apply howned.bare
      intro s' hs'
      obtain rfl := Option.some.inj (hs.symm.trans hs')
      exact hbare
    · exact .inr hnewest

theorem keeps_of_none (hs : n.seqnoTab.find pub.key = none) :
    n.keeps kv pub.key (.recv pub stamp) = false := by
  simp only [SubNode.keeps, if_true, hs]

theorem keeps_of_some {s : SubSeqno} (hs : n.seqnoTab.find pub.key = some s) :
    n.keeps kv pub.key (.recv pub stamp) =
      (s.updateSeqno = n.db.updateSeqno ||
        ((n.db.matchSubscription kv pub (recvArgs pub stamp)).2 &&
          (n.db.matchSubscription kv pub (recvArgs pub stamp)).1.startSeqno = s.startSeqno)) := by
  simp only [SubNode.keeps, if_true, hs]

theorem sized_recv (hsized : n.seqnoTab.Sized kv) (howned : n.seqnoTab.Owned)
    (hstays : TableStays kv n (.recv pub stamp))
    (hfits : SeqnoTab.htTotal kv (n.recv kv pub stamp).seqnoTab.tab < 2 ^ 64) :
    (n.recv kv pub stamp).seqnoTab.Sized kv := by
  rcases SubNode.recv_branches kv n pub stamp with ⟨-, hr⟩ | ⟨htrail, ⟨hentry, hmatch, hr⟩ |
    ⟨hentry, hmatch, hr⟩ | ⟨s, hs, -, -, -, hr⟩ | ⟨s, hs, -, hr⟩⟩
  · rw [hr]
    exact hsized
  · have hkeep : n.keeps kv pub.key (.recv pub stamp) = false := by
      rcases hentry with hs | ⟨s, hs, hupd⟩
      · exact keeps_of_none hs
      · rw [keeps_of_some hs]
        simp [hupd, hmatch]
    have hbare := hstays.bare howned htrail hkeep
    rw [hr]
    exact (hsized.upsert (.inl hbare)).remove hbare.upsert _
  · have hkeep : n.keeps kv pub.key (.recv pub stamp) = false := by
      rcases hentry with hs | ⟨s, hs, hupd, hstart⟩
      · exact keeps_of_none hs
      · rw [keeps_of_some hs]
        simp [hupd, hmatch, Ne.symm hstart]
    have hbare := hstays.bare howned htrail hkeep
    rw [hr]
    exact (hsized.upsert (.inl hbare)).set hbare.upsert rfl
  · exact (hsized.upsert (hstays.bare_or_newest howned htrail hs)).matchEntry
      (SeqnoTab.upsert_lookup_self hs) hr rfl hfits
  · exact (hsized.upsert (hstays.bare_or_newest howned htrail hs)).matchEntry
      (SeqnoTab.upsert_lookup_self hs) hr rfl hfits

/-- The count of a generation is not below the memory of one of its tables. -/
theorem not_underflows (hsized : n.seqnoTab.Sized kv) (howned : n.seqnoTab.Owned) {e : Event}
    (hstays : TableStays kv n e) : underflows kv n e = false := by
  cases e with
  | recv pub stamp =>
    simp only [underflows]
    cases hs : n.seqnoTab.find pub.key with
    | none => rfl
    | some s =>
      by_contra hne
      simp only [Bool.not_eq_false, Bool.and_eq_true, Bool.not_eq_true', decide_eq_true_eq]
        at hne
      obtain ⟨⟨⟨htrail, -⟩, -⟩, hlt⟩ := hne
      have hsized' := hsized.upsert (hstays.bare_or_newest howned htrail hs)
      have htotal := SeqnoTab.htTotal_of_lookup kv (SeqnoTab.upsert_lookup_self hs)
      have hsz := (n.seqnoTab.upsert_sizes pub.key).1
      have hcount := hsized'.tab
      rw [hsz, htotal] at hcount
      omega
  | flip | sub => rfl

theorem not_leaks (hpos : ∀ ht, 0 < kv.htSize ht) (hsized : n.seqnoTab.Sized kv) (e : Event) :
    leaks kv n e = false := by
  cases e with
  | flip winSize winCount curTime doubleTime quadTime =>
    by_contra hne
    simp only [leaks, Bool.not_eq_false, Bool.and_eq_true, decide_eq_true_eq, List.any_eq_true]
      at hne
    obtain ⟨⟨-, hzero⟩, ⟨key, s⟩, hmem, hsome⟩ := hne
    have htotal : SeqnoTab.htTotal kv n.seqnoTab.tabOld2 = 0 := by
      rw [← hsized.tabOld2, hzero]
      rfl
    have hs : n.seqnoTab.tabOld2.lookup key = some s := AList.mem_lookup_iff.2 hmem
    have hnone := SeqnoTab.bare_of_htTotal_eq_zero hpos htotal hs
    rw [hnone] at hsome
    cases hsome
  | recv | sub => rfl

theorem Inv.step (hpos : ∀ ht, 0 < kv.htSize ht) (h : Inv kv l) {e : Event}
    (hok : Keeps kv subKv l e) : Inv kv (l.step kv subKv e) := by
  obtain ⟨hstays, hfits⟩ := hok
  have hunder : (l.step kv subKv e).underflowed = false := by
    show (l.underflowed || underflows kv l.node e) = false
    rw [h.exact.underflowed, not_underflows h.exact.sized h.owned hstays]
    rfl
  have hleak : (l.step kv subKv e).leaked = false := by
    show (l.leaked || leaks kv l.node e) = false
    rw [h.exact.leaked, not_leaks hpos h.exact.sized e]
    rfl
  cases e with
  | recv pub stamp =>
    exact ⟨⟨sized_recv h.exact.sized h.owned hstays hfits, hunder, hleak⟩, owned_recv h.owned _ _⟩
  | flip winSize winCount curTime doubleTime quadTime =>
    have heq : (l.step kv subKv (.flip winSize winCount curTime doubleTime quadTime)).node.seqnoTab =
        if l.node.seqnoTab.flips kv winSize winCount doubleTime quadTime then
          l.node.seqnoTab.turned curTime else l.node.seqnoTab := SeqnoTab.flip_eq _ _ _ _ _ _ _
    split at heq
    · refine ⟨⟨?_, hunder, hleak⟩, ?_⟩
      · rw [heq]
        exact h.exact.sized.turned curTime
      · rw [heq]
        exact h.owned.turned curTime
    · refine ⟨⟨?_, hunder, hleak⟩, ?_⟩
      · rw [heq]
        exact h.exact.sized
      · rw [heq]
        exact h.owned
  | sub e => exact ⟨⟨h.exact.sized, hunder, hleak⟩, h.owned⟩

/-- A message changes the older generations and their counts as its upsert does. -/
theorem recv_older (kv : SeqnoKv) (howned : n.seqnoTab.Owned)
    (htrail : n.isTrailing pub (recvArgs pub stamp) = false) :
    let t := (n.recv kv pub stamp).seqnoTab
    let u := (n.seqnoTab.upsert pub.key).1
    SeqnoTab.htTotal kv t.tabOld = SeqnoTab.htTotal kv u.tabOld ∧
      SeqnoTab.htTotal kv t.tabOld2 = SeqnoTab.htTotal kv u.tabOld2 ∧
      t.oldHtSize = n.seqnoTab.oldHtSize ∧ t.oldHtSize2 = n.seqnoTab.oldHtSize2 := by
  obtain ⟨-, hsz, hsz2⟩ := n.seqnoTab.upsert_sizes pub.key
  obtain ⟨hcopy, hcopy2⟩ := howned.upsert_copies pub.key
  have herase (tab : RouteVec SubSeqno) (p : Prop) [Decidable p]
      (htab : ∀ s, tab.lookup pub.key = some s → s.seqnoHt = none) :
      SeqnoTab.htTotal kv (if p then tab.erase pub.key else tab) = SeqnoTab.htTotal kv tab := by
    split
    · exact SeqnoTab.htTotal_erase_of_bare htab
    · rfl
  rcases SubNode.recv_branches kv n pub stamp with ⟨htrail', -⟩ | ⟨-, ⟨-, -, hr⟩ | ⟨-, -, hr⟩ |
    ⟨s, -, -, -, -, hr⟩ | ⟨s, -, -, hr⟩⟩
  · rw [htrail] at htrail'
    cases htrail'
  · rw [hr]
    exact ⟨herase _ _ hcopy, herase _ _ hcopy2, hsz, hsz2⟩
  · rw [hr]
    exact ⟨rfl, rfl, hsz, hsz2⟩
  · rw [hr]
    exact ⟨rfl, rfl, hsz, hsz2⟩
  · rw [hr]
    exact ⟨rfl, rfl, hsz, hsz2⟩

/-- A message that does not keep the entry of the newest generation takes its table. -/
theorem htTotal_of_not_keeps (htrail : n.isTrailing pub (recvArgs pub stamp) = false)
    (hkeep : n.keeps kv pub.key (.recv pub stamp) = false) {s : SubSeqno}
    (hs : n.seqnoTab.tab.lookup pub.key = some s) :
    SeqnoTab.htTotal kv (n.recv kv pub stamp).seqnoTab.tab =
        SeqnoTab.htTotal kv (n.seqnoTab.tab.erase pub.key) ∧
      (n.recv kv pub stamp).seqnoTab.seqnoHtSize = n.seqnoTab.seqnoHtSize := by
  have hup : (n.seqnoTab.upsert pub.key).1 = n.seqnoTab := by simp [SeqnoTab.upsert, hs]
  rcases SubNode.recv_branches kv n pub stamp with ⟨htrail', -⟩ | ⟨-, ⟨-, -, hr⟩ | ⟨-, -, hr⟩ |
    ⟨s, hs, -, hmatch, hstart, -⟩ | ⟨s, hs, hupd, -⟩⟩
  · rw [htrail] at htrail'
    cases htrail'
  · rw [hr, hup]
    exact ⟨rfl, rfl⟩
  · rw [hr, hup]
    exact ⟨SeqnoTab.htTotal_insert_of_bare rfl, rfl⟩
  · rw [keeps_of_some hs] at hkeep
    simp [hmatch, hstart] at hkeep
  · rw [keeps_of_some hs] at hkeep
    simp [hupd] at hkeep

theorem tableStays_of_exact (hpos : ∀ ht, 0 < kv.htSize ht) (h : Inv kv l)
    (hexact : ((l.step kv subKv (.recv pub stamp))).Exact kv) :
    TableStays kv l.node (.recv pub stamp) := by
  cases htrail : l.node.isTrailing pub (recvArgs pub stamp) with
  | true => exact .inl htrail
  | false =>
    right
    intro s hs
    cases htab : l.node.seqnoTab.tab.lookup pub.key with
    | none =>
      obtain ⟨hold, hold2, hsz, hsz2⟩ := recv_older kv h.owned htrail
      exact .inl (h.exact.sized.bare_of_moved hpos hs htab hexact.sized hold hold2 hsz hsz2)
    | some s' =>
      have hs' : s' = s := by
        unfold SeqnoTab.find at hs
        rw [htab] at hs
        exact Option.some.inj hs
      subst hs'
      cases hkeep : l.node.keeps kv pub.key (.recv pub stamp) with
      | true => exact .inr ⟨by simp, rfl⟩
      | false =>
        left
        by_contra hne
        have hbytes := SeqnoTab.htBytes_pos hpos hne
        obtain ⟨htotal, hsz⟩ := htTotal_of_not_keeps htrail hkeep htab
        have hbefore := h.exact.sized.tab
        have hafter : (l.node.recv kv pub stamp).seqnoTab.seqnoHtSize.toNat =
            SeqnoTab.htTotal kv (l.node.recv kv pub stamp).seqnoTab.tab := hexact.sized.tab
        rw [SeqnoTab.htTotal_of_lookup kv htab] at hbefore
        rw [hsz, htotal] at hafter
        omega

theorem keeps_of_exact (hpos : ∀ ht, 0 < kv.htSize ht) (h : Inv kv l) {e : Event}
    (hexact : (l.step kv subKv e).Exact kv) : Keeps kv subKv l e := by
  constructor
  · cases e with
    | recv pub stamp => exact tableStays_of_exact hpos h hexact
    | flip | sub => trivial
  · have hsized : (l.node.step kv subKv e).seqnoTab.seqnoHtSize.toNat =
        SeqnoTab.htTotal kv (l.node.step kv subKv e).seqnoTab.tab := hexact.sized.tab
    rw [FitsMemory, ← hsized]
    exact UInt64.toNat_lt _

/-- **The counts are the memory of the tables**, no count goes below zero and a flip leaves
no table behind, exactly as long as no table leaves the newest generation with a message. -/
theorem sizes_exact_iff (hpos : ∀ ht, 0 < kv.htSize ht) (subKv : Kv) (db : SubDB)
    (curTime windowIval : UInt64) (es : List Event) :
    (∀ k, ((es.take k).foldl (step kv subKv) (start db curTime windowIval)).Exact kv) ↔
      Run.AllOk (step kv subKv) (Keeps kv subKv) (start db curTime windowIval) es := by
  symm
  apply Run.allOk_iff_good (fun (l : SeqnoLedger) (h : Inv kv l) => h.exact)
  · intro l e h hok
    exact h.step hpos hok
  · intro l e h hexact
    exact keeps_of_exact hpos h hexact
  · exact inv_start db curTime windowIval

/-- Tables of the size that they have for a few publishers, and a window that is always
full. -/
def smallTables : SeqnoKv where
  maxMsgLoss := 1000
  msgFrameLoss := 1001
  htSize _ := 288
  tabSize _ := 1024
  patMatch _ _ _ := false

theorem smallTables_pos (ht : UidSeqno) : 0 < smallTables.htSize ht := by
  show (0 : UInt64) < 288
  decide

/-- Two publishers on a subject, and a flip. -/
def twoPublishers : List Event :=
  [.recv (SubNode.framed 1 3 1 0) 0, .recv (SubNode.framed 2 3 1 0) 0,
    .flip 0 0 25769803777 true false]

theorem sizes_exact_iff_twoPublishers :
    (∀ ht, 0 < smallTables.htSize ht) ∧
      ((∀ k, ((twoPublishers.take k).foldl (step smallTables SubDB.prefixKv)
          (start SubNode.subscribed.db 25769803776 10000000000)).Exact smallTables) ↔
        Run.AllOk (step smallTables SubDB.prefixKv) (Keeps smallTables SubDB.prefixKv)
          (start SubNode.subscribed.db 25769803776 10000000000) twoPublishers) := by
  exact ⟨smallTables_pos, sizes_exact_iff smallTables_pos _ _ _ _ _⟩

/-- The first publisher again, after the flip: its entry takes the table along. -/
theorem table_moved_not_counted :
    ¬ ∀ (kv : SeqnoKv) (subKv : Kv) (db : SubDB) (curTime windowIval : UInt64) (es : List Event),
      (∀ ht, 0 < kv.htSize ht) →
        (es.foldl (step kv subKv) (start db curTime windowIval)).Exact kv := by
  intro h
  have hexact := h smallTables SubDB.prefixKv SubNode.subscribed.db 25769803776 10000000000
    (twoPublishers ++ [.recv (SubNode.framed 1 3 2 0) 0]) smallTables_pos
  have hunder := hexact.underflowed
  revert hunder
  decide

end SeqnoLedger

end Raims
