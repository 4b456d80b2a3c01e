import Raims.LinkState.Adjacency
import Raims.Lib.Deferred
import Mathlib.Data.Finset.Basic

/-!
# Applying a link state record (`UserDB::add_adjacency_change`)

A record changes one adjacency set of its publisher: the cost and the names of
the transport, one member, and the remote end. A record that names a peer the
receiver does not know yet is applied as far as it goes and reported as not
applied. Its effect on the members and the remote end is one of three operations
(`MemberOp`); two records that are `Independent` commute, and what a failed
attempt leaves behind is overwritten when the record is applied again.
-/

namespace Raims

/-- `Nonce`: a bridge id, `NONCE_SIZE` bytes. -/
abbrev Nonce := BitVec 128

/-- `node_ht` and `zombie_ht`: from a bridge id to a local uid. -/
abbrev UidTable := Nonce → Option ℕ

/-- `AdjacencyRec`. A field that is read only when the message had it is an
option; `user` and `cost_old` are not read here. -/
structure AdjacencyRec where
  nonce : Option Nonce
  tportName : Text
  tportType : Text
  tportid : Option ℕ
  cost : AdjCost
  remBridge : Option Nonce
  remTportid : Option ℕ
  add : Bool

namespace AdjacencyRec

/-- The set of the record's transport with its owner, cost and names set. -/
def touch (rec : AdjacencyRec) (uid t : ℕ) (slot : Option AdjacencySpace) :
    AdjacencySpace :=
  let set := slot.getD AdjacencySpace.new
  { set with
    uid := uid
    tportId := t
    cost := rec.cost
    tport := if rec.tportName = [] then set.tport else rec.tportName
    tportType := if rec.tportType = [] then set.tportType else rec.tportType }

/-- The part of `add_adjacency_change` after the bridge id was found to belong
to user `b`. -/
def change (find : UidTable) (rec : AdjacencyRec) (b : ℕ) (set : AdjacencySpace) :
    AdjacencySpace × Bool :=
  if rec.add then
    let set := { set with members := insert b set.members }
    match rec.remTportid with
    | none => (set, true)
    | some 0 => ({ set with remUid := 0, remTportId := 0 }, true)
    | some rt =>
      match rec.remBridge with
      | some rb =>
        match find rb with
        | some uid => ({ set with remUid := uid, remTportId := rt }, true)
        | none => ({ set with remUid := 0, remTportId := 0 }, false)
      | none => ({ set with remUid := b, remTportId := rt }, true)
  else if b ∈ set.members then
    let set := { set with members := set.members.erase b }
    if set.members = ∅ then ({ set with remUid := 0, remTportId := 0 }, true)
    else (set, true)
  else (set, true)

/-- The part after the transport's set was found. -/
def applyTo (find : UidTable) (uid : ℕ) (rec : AdjacencyRec) (set : AdjacencySpace) :
    AdjacencySpace × Bool :=
  match rec.nonce with
  | none => (set, true)
  | some nonce =>
    match find nonce with
    | none => (set, false)
    | some b => if b = uid then (set, true) else rec.change find b set

end AdjacencyRec

/-- `add_adjacency_change` on the table of user `uid`: the table, and whether the
record was applied. -/
def AdjacencyTab.addChange (find : UidTable) (uid : ℕ) (tab : AdjacencyTab)
    (rec : AdjacencyRec) : AdjacencyTab × Bool :=
  match rec.tportid with
  | none => (tab, true)
  | some t =>
    let r := rec.applyTo find uid (rec.touch uid t (tab.ptr t))
    (tab.put t r.1, r.2)

/-! ## The operation of a record on the members and the remote end -/

inductive MemberOp where
  | skip
  | add (b : ℕ) (rem : Option (ℕ × ℕ))
  | remove (b : ℕ)

def MemberOp.run : MemberOp → AdjacencySpace → AdjacencySpace
  | skip, set => set
  | add b none, set => { set with members := insert b set.members }
  | add b (some rem), set =>
    { set with members := insert b set.members, remUid := rem.1, remTportId := rem.2 }
  | remove b, set =>
    { set with
      members := set.members.erase b
      remUid := if set.members = {b} then 0 else set.remUid
      remTportId := if set.members = {b} then 0 else set.remTportId }

namespace AdjacencyRec

variable (find : UidTable) (uid : ℕ) (rec : AdjacencyRec)

/-- The remote end a record sets, if it does. -/
def remEnd (b : ℕ) : Option (ℕ × ℕ) :=
  match rec.remTportid with
  | none => none
  | some 0 => some (0, 0)
  | some rt =>
    match rec.remBridge with
    | some rb =>
      match find rb with
      | some v => some (v, rt)
      | none => some (0, 0)
    | none => some (b, rt)

def memberOp : MemberOp :=
  match rec.nonce.bind find with
  | none => .skip
  | some b =>
    if b = uid then .skip
    else if rec.add then .add b (rec.remEnd find b) else .remove b

/-- The record names no unknown peer that its application has to look up. -/
def resolved : Bool :=
  match rec.nonce with
  | none => true
  | some nonce =>
    match find nonce with
    | none => false
    | some b =>
      b = uid || !rec.add ||
        match rec.remTportid with
        | none => true
        | some 0 => true
        | some _ => rec.remBridge.all fun rb => (find rb).isSome

theorem applyTo_eq (set : AdjacencySpace) :
    rec.applyTo find uid set = ((rec.memberOp find uid).run set, rec.resolved find uid) := by
  unfold applyTo memberOp resolved
  cases rec.nonce with
  | none => rfl
  | some nonce =>
    cases hf : find nonce with
    | none => simp [hf, MemberOp.run]
    | some b =>
      by_cases hb : b = uid
      · simp [hf, hb, MemberOp.run]
      · simp only [hf, hb, if_false, Option.bind_some, decide_false, Bool.false_or]
        unfold change remEnd
        cases hadd : rec.add with
        | false =>
          by_cases hm : b ∈ set.members
          · have he : set.members.erase b = ∅ ↔ set.members = {b} := by
              rw [Finset.erase_eq_empty_iff]
              exact or_iff_right (Finset.ne_empty_of_mem hm)
            by_cases hs : set.members = {b}
            · simp [hs, MemberOp.run]
            · simp [hm, he, hs, MemberOp.run]
          · have hs : set.members ≠ {b} := fun h => hm (by simp [h])
            simp [hm, hs, MemberOp.run]
        | true =>
          rcases rec.remTportid with _ | _ | rt
          · simp [MemberOp.run]
          · simp [MemberOp.run]
          · cases rec.remBridge with
            | none => simp [MemberOp.run]
            | some rb => cases hrb : find rb <;> simp [hrb, MemberOp.run]

end AdjacencyRec

/-- The table a record leaves. -/
def AdjacencyTab.apply (find : UidTable) (uid : ℕ) (tab : AdjacencyTab)
    (rec : AdjacencyRec) : AdjacencyTab :=
  (tab.addChange find uid rec).1

theorem AdjacencyTab.apply_of_tportid {find : UidTable} {uid : ℕ} (tab : AdjacencyTab)
    {rec : AdjacencyRec} {t : ℕ} (ht : rec.tportid = some t) :
    tab.apply find uid rec =
      tab.put t ((rec.memberOp find uid).run (rec.touch uid t (tab.ptr t))) := by
  simp only [apply, addChange, ht, AdjacencyRec.applyTo_eq]

theorem AdjacencyTab.apply_of_no_tportid {find : UidTable} {uid : ℕ}
    (tab : AdjacencyTab) {rec : AdjacencyRec} (ht : rec.tportid = none) :
    tab.apply find uid rec = tab := by
  simp only [apply, addChange, ht]

/-- The record is set aside by a node that knows the peers of `find`. -/
def AdjacencyRec.parks (find : UidTable) (uid : ℕ) (rec : AdjacencyRec) : Bool :=
  rec.tportid.isSome && !rec.resolved find uid

theorem AdjacencyTab.addChange_snd (find : UidTable) (uid : ℕ) (tab : AdjacencyTab)
    (rec : AdjacencyRec) : (tab.addChange find uid rec).2 = !rec.parks find uid := by
  unfold addChange AdjacencyRec.parks
  cases rec.tportid with
  | none => rfl
  | some t => simp [AdjacencyRec.applyTo_eq]

/-! ## Learning more peers -/

/-- `f` knows every peer that `find` knows, by the same uid. -/
def UidTable.Extends (find f : UidTable) : Prop :=
  ∀ nonce b, find nonce = some b → f nonce = some b

/-- No two bridges have one uid. -/
def UidTable.Injective (f : UidTable) : Prop :=
  ∀ x y b, f x = some b → f y = some b → x = y

namespace AdjacencyRec

variable {find f : UidTable} {uid : ℕ} {rec : AdjacencyRec}

/-- A record that could be applied is applied the same way later. -/
theorem memberOp_of_resolved (hf : find.Extends f) (h : rec.resolved find uid) :
    rec.memberOp f uid = rec.memberOp find uid := by
  unfold resolved at h
  unfold memberOp
  cases hn : rec.nonce with
  | none => rfl
  | some nonce =>
    rw [hn] at h
    cases hb : find nonce with
    | none => simp [hb] at h
    | some b =>
      simp only [hb, Option.bind_some, hf nonce b hb]
      by_cases hu : b = uid
      · simp [hu]
      · cases hadd : rec.add with
        | false => simp
        | true =>
          -- the remote end is the only other lookup
          simp only [hb, hu, hadd, decide_false, Bool.false_or, Bool.not_true] at h
          unfold remEnd
          rcases hrt : rec.remTportid with _ | _ | rt
          · simp
          · simp
          · rw [hrt] at h
            cases hrb : rec.remBridge with
            | none => simp
            | some rb =>
              simp only [hrb, Option.all_some] at h
              obtain ⟨v, hv⟩ := Option.isSome_iff_exists.mp h
              simp [hv, hf rb v hv]

end AdjacencyRec

/-! ## Independent records -/

/-- The remote ends set by two added members do not differ. -/
def AdjacencyRec.SameRem (a b : AdjacencyRec) : Prop :=
  a.remTportid = none ∨ b.remTportid = none ∨
    a.remTportid = b.remTportid ∧
      (a.remTportid = some 0 ∨ a.remBridge.or a.nonce = b.remBridge.or b.nonce)

/-- The members and the remote end do not depend on the order of the two. A
remove clears the remote end of a set that it leaves empty, so a member that is
added without one is not independent of it. -/
def AdjacencyRec.IndependentMembers (a b : AdjacencyRec) : Prop :=
  a.nonce = none ∨ b.nonce = none ∨
    (a.add = true ∧ b.add = true ∧ a.SameRem b) ∨
    (a.add = false ∧ b.add = false) ∨
    (a.nonce ≠ b.nonce ∧ a.add = true ∧ b.add = false ∧ a.remTportid ≠ none) ∨
    (a.nonce ≠ b.nonce ∧ a.add = false ∧ b.add = true ∧ b.remTportid ≠ none)

/-- Two records for different transports, or that agree on cost, names and remote
end and do not add and remove one member. -/
def AdjacencyRec.Independent (a b : AdjacencyRec) : Prop :=
  a.tportid = none ∨ b.tportid = none ∨ a.tportid ≠ b.tportid ∨
    a.cost = b.cost ∧
    (a.tportName = [] ∨ b.tportName = [] ∨ a.tportName = b.tportName) ∧
    (a.tportType = [] ∨ b.tportType = [] ∨ a.tportType = b.tportType) ∧
    a.IndependentMembers b

instance (a b : AdjacencyRec) : Decidable (a.Independent b) := by
  unfold AdjacencyRec.Independent AdjacencyRec.IndependentMembers AdjacencyRec.SameRem
  infer_instance

/-- Operations that commute on every set. -/
def MemberOp.Compatible : MemberOp → MemberOp → Prop
  | skip, _ => True
  | _, skip => True
  | add _ rem, add _ rem' => rem = none ∨ rem' = none ∨ rem = rem'
  | remove _, remove _ => True
  | add b rem, remove b' => b ≠ b' ∧ rem ≠ none
  | remove b, add b' rem => b ≠ b' ∧ rem ≠ none

theorem MemberOp.run_add_remove {b b' : ℕ} (hne : b ≠ b') (rem : ℕ × ℕ)
    (set : AdjacencySpace) :
    (add b (some rem)).run ((remove b').run set) =
      (remove b').run ((add b (some rem)).run set) := by
  have hnot : insert b set.members ≠ {b'} := fun h =>
    hne (Finset.mem_singleton.mp (h ▸ Finset.mem_insert_self b _))
  simp only [run, hnot, if_false, Finset.erase_insert_of_ne hne]

theorem erase_eq_singleton {m : Finset ℕ} {b b' : ℕ} (h : b ≠ b') :
    m.erase b' = {b} ↔ m = {b} ∨ m = {b, b'} := by
  constructor
  · intro he
    by_cases hm : b' ∈ m
    · right
      rw [← Finset.insert_erase hm, he, Finset.pair_comm]
    · left
      rwa [Finset.erase_eq_of_notMem hm] at he
  · rintro (rfl | rfl)
    · exact Finset.erase_eq_of_notMem (by simpa using Ne.symm h)
    · rw [Finset.pair_comm, Finset.erase_insert (by simpa using Ne.symm h)]

theorem MemberOp.run_remove_remove (b b' : ℕ) (set : AdjacencySpace) :
    (remove b).run ((remove b').run set) = (remove b').run ((remove b).run set) := by
  rcases eq_or_ne b b' with rfl | hne
  · rfl
  · -- either order clears the remote end when nothing else was a member
    simp only [run, erase_eq_singleton hne, erase_eq_singleton (Ne.symm hne),
      Finset.erase_right_comm, Finset.pair_comm b' b]
    by_cases h1 : set.members = {b} <;> by_cases h2 : set.members = {b'} <;>
      simp [h1, h2]

theorem MemberOp.run_comm {o o' : MemberOp} (h : o.Compatible o') (set : AdjacencySpace) :
    o.run (o'.run set) = o'.run (o.run set) := by
  cases o with
  | skip => rfl
  | add b rem =>
    cases o' with
    | skip => rfl
    | add b' rem' =>
      rcases rem with _ | rem <;> rcases rem' with _ | rem' <;>
        simp_all [run, Compatible, Finset.insert_comm]
    | remove b' =>
      obtain ⟨hne, hrem⟩ := h
      obtain ⟨r, rfl⟩ := Option.ne_none_iff_exists'.mp hrem
      exact run_add_remove hne r set
  | remove b =>
    cases o' with
    | skip => rfl
    | add b' rem' =>
      obtain ⟨hne, hrem⟩ := h
      obtain ⟨r, rfl⟩ := Option.ne_none_iff_exists'.mp hrem
      exact (run_add_remove (Ne.symm hne) r set).symm
    | remove b' => exact run_remove_remove b b' set

namespace AdjacencyRec

variable {f : UidTable} {uid : ℕ} {a b : AdjacencyRec}

theorem remEnd_ne_none (h : a.remTportid ≠ none) (x : ℕ) : a.remEnd f x ≠ none := by
  unfold remEnd
  rcases hrt : a.remTportid with _ | _ | rt
  · exact absurd hrt h
  · simp
  · cases a.remBridge with
    | none => simp
    | some rb => cases hf : f rb <;> simp [hf]

/-- Independent records look up the same remote end. -/
theorem remEnd_eq (hs : a.SameRem b) {x y : ℕ} (hx : a.nonce.bind f = some x)
    (hy : b.nonce.bind f = some y) :
    a.remEnd f x = none ∨ b.remEnd f y = none ∨ a.remEnd f x = b.remEnd f y := by
  rcases hs with h | h | ⟨h, hrem⟩
  · left
    simp [remEnd, h]
  · right; left
    simp [remEnd, h]
  · right; right
    unfold remEnd
    rw [← h]
    rcases hrt : a.remTportid with _ | _ | rt
    · rfl
    · rfl
    · have heq : a.remBridge.or a.nonce = b.remBridge.or b.nonce :=
        hrem.resolve_left (by simp [hrt])
      rcases ha : a.remBridge with _ | ra <;> rcases hb : b.remBridge with _ | rb
      · rw [ha, hb, Option.none_or, Option.none_or] at heq
        rw [heq, hy] at hx
        simpa using (Option.some.inj hx).symm
      · rw [ha, hb, Option.none_or, Option.some_or] at heq
        rw [heq, Option.bind_some] at hx
        simp [hx]
      · rw [ha, hb, Option.none_or, Option.some_or] at heq
        rw [← heq, Option.bind_some] at hy
        simp [hy]
      · rw [ha, hb, Option.some_or, Option.some_or] at heq
        rw [Option.some.inj heq]

theorem compatible_skip (o : MemberOp) : o.Compatible .skip := by
  cases o <;> trivial

theorem compatible_memberOp (hf : f.Injective) (h : a.IndependentMembers b) :
    (a.memberOp f uid).Compatible (b.memberOp f uid) := by
  unfold memberOp
  cases hx : a.nonce.bind f with
  | none => trivial
  | some x =>
    cases hy : b.nonce.bind f with
    | none => exact compatible_skip _
    | some y =>
      by_cases hxu : x = uid
      · simp only [hxu, if_true]
        trivial
      · by_cases hyu : y = uid
        · simp only [hyu, if_true]
          exact compatible_skip _
        · simp only [hxu, hyu, if_false]
          -- different bridges have different uids
          have hne : a.nonce ≠ b.nonce → x ≠ y := by
            rintro hab rfl
            obtain ⟨n, hn, hnx⟩ := Option.bind_eq_some_iff.mp hx
            obtain ⟨m, hm, hmx⟩ := Option.bind_eq_some_iff.mp hy
            exact hab (by rw [hn, hm, hf n m x hnx hmx])
          rcases h with h | h | ⟨ha, hb, hs⟩ | ⟨ha, hb⟩ | ⟨hn, ha, hb, hr⟩ |
            ⟨hn, ha, hb, hr⟩
          · simp [h] at hx
          · simp [h] at hy
          · simp only [ha, hb, if_true]
            exact remEnd_eq hs hx hy
          · simp [ha, hb, MemberOp.Compatible]
          · simp only [ha, hb, if_true, Bool.false_eq_true, if_false]
            exact ⟨hne hn, remEnd_ne_none hr x⟩
          · simp only [ha, hb, if_true, Bool.false_eq_true, if_false]
            exact ⟨hne hn, remEnd_ne_none hr y⟩

/-- The first assignments of a record leave the members and the remote end. -/
theorem touch_run (a : AdjacencyRec) (o : MemberOp) (uid t : ℕ) (set : AdjacencySpace) :
    a.touch uid t (some (o.run set)) = o.run (a.touch uid t (some set)) := by
  rcases o with _ | ⟨b, _ | rem⟩ | b <;> rfl

/-- Independent records commute on every table. -/
theorem Independent.commutes (hf : f.Injective) (h : a.Independent b) :
    Deferred.Commutes (AdjacencyTab.apply f uid) a b := by
  intro tab
  cases hta : a.tportid with
  | none => rw [AdjacencyTab.apply_of_no_tportid _ hta, AdjacencyTab.apply_of_no_tportid _ hta]
  | some t =>
    cases htb : b.tportid with
    | none =>
      rw [AdjacencyTab.apply_of_no_tportid _ htb, AdjacencyTab.apply_of_no_tportid _ htb]
    | some t' =>
      simp only [AdjacencyTab.apply_of_tportid _ hta, AdjacencyTab.apply_of_tportid _ htb]
      rcases eq_or_ne t t' with rfl | htt
      · obtain ⟨hc, hn, hy, hm⟩ : a.cost = b.cost ∧ _ ∧ _ ∧ a.IndependentMembers b := by
          rcases h with h | h | h | h
          · simp [hta] at h
          · simp [htb] at h
          · exact absurd (hta.trans htb.symm) h
          · exact h
        have hcomp : (a.memberOp f uid).Compatible (b.memberOp f uid) :=
          compatible_memberOp hf hm
        have hop := MemberOp.run_comm hcomp
        have htouch : ∀ slot, a.touch uid t (some (b.touch uid t slot)) =
            b.touch uid t (some (a.touch uid t slot)) := by
          intro slot
          simp only [touch, Option.getD_some, hc]
          grind
        simp only [AdjacencyTab.ptr_put_self, AdjacencyTab.put_put, touch_run, htouch, hop]
      · rw [AdjacencyTab.ptr_put_ne _ (Ne.symm htt), AdjacencyTab.ptr_put_ne _ htt,
          AdjacencyTab.put_comm _ htt]

end AdjacencyRec

/-! ## What a failed attempt leaves -/

namespace AdjacencyRec

variable {find f : UidTable} {uid : ℕ} {r : AdjacencyRec}

/-- The set may hold traces of a failed attempt at `r`: its cost and names, and,
when only the remote end was unknown, its member and a cleared remote end. -/
def Traces (f : UidTable) (uid : ℕ) (r : AdjacencyRec) (s s' : AdjacencySpace) : Prop :=
  (r.tportName = [] → s.tport = s'.tport) ∧
    (r.tportType = [] → s.tportType = s'.tportType) ∧
    (s.members = s'.members ∧ s.remUid = s'.remUid ∧ s.remTportId = s'.remTportId ∨
      ∃ b rem, r.memberOp f uid = .add b (some rem) ∧
        insert b s.members = insert b s'.members)

theorem Traces.touch {s s' : AdjacencySpace} (h : Traces f uid r s s') (q : AdjacencyRec)
    (t : ℕ) : Traces f uid r (q.touch uid t (some s)) (q.touch uid t (some s')) := by
  obtain ⟨h1, h2, h3⟩ := h
  refine ⟨fun hn => ?_, fun hn => ?_, h3⟩
  · simp only [AdjacencyRec.touch, Option.getD_some, h1 hn]
  · simp only [AdjacencyRec.touch, Option.getD_some, h2 hn]

theorem Traces.run {s s' : AdjacencySpace} (h : Traces f uid r s s') (o : MemberOp) :
    Traces f uid r (o.run s) (o.run s') := by
  obtain ⟨h1, h2, ⟨hm, hu, ht⟩ | ⟨b, rem, hr, hm⟩⟩ := h
  · refine ⟨?_, ?_, Or.inl ?_⟩
    · rcases o with _ | ⟨b, _ | rem⟩ | b <;> exact h1
    · rcases o with _ | ⟨b, _ | rem⟩ | b <;> exact h2
    · rcases o with _ | ⟨b, _ | rem⟩ | b <;> simp [MemberOp.run, hm, hu, ht]
  · refine ⟨?_, ?_, Or.inr ⟨b, rem, hr, ?_⟩⟩
    · rcases o with _ | ⟨b, _ | rem⟩ | b <;> exact h1
    · rcases o with _ | ⟨b, _ | rem⟩ | b <;> exact h2
    · rcases o with _ | ⟨c, _ | rem⟩ | c
      · exact hm
      · simp only [MemberOp.run, Finset.insert_comm b c, hm]
      · simp only [MemberOp.run, Finset.insert_comm b c, hm]
      · -- erasing `c` commutes with adding `b` up to `b` itself
        simp only [MemberOp.run]
        ext x
        have hx : x ∈ insert b s.members ↔ x ∈ insert b s'.members := by rw [hm]
        simp only [Finset.mem_insert, Finset.mem_erase] at hx ⊢
        constructor
        · rintro (rfl | ⟨hne, hmem⟩)
          · exact .inl rfl
          · exact (hx.1 (.inr hmem)).imp_right fun h => ⟨hne, h⟩
        · rintro (rfl | ⟨hne, hmem⟩)
          · exact .inl rfl
          · exact (hx.2 (.inr hmem)).imp_right fun h => ⟨hne, h⟩

/-- Applying `r` removes its own traces. -/
theorem Traces.eq {s s' : AdjacencySpace} (h : Traces f uid r s s') (t : ℕ) :
    (r.memberOp f uid).run (r.touch uid t (some s)) =
      (r.memberOp f uid).run (r.touch uid t (some s')) := by
  obtain ⟨h1, h2, hm⟩ := h
  have hn : (r.touch uid t (some s)).tport = (r.touch uid t (some s')).tport := by
    by_cases hn : r.tportName = []
    · simp [AdjacencyRec.touch, hn, h1 hn]
    · simp [AdjacencyRec.touch, hn]
  have hy : (r.touch uid t (some s)).tportType = (r.touch uid t (some s')).tportType := by
    by_cases hy : r.tportType = []
    · simp [AdjacencyRec.touch, hy, h2 hy]
    · simp [AdjacencyRec.touch, hy]
  rcases hm with ⟨hm, hu, ht⟩ | ⟨b, rem, hr, hm⟩
  · congr 1
    exact AdjacencySpace.ext hm hn hy rfl rfl hu ht rfl
  · rw [hr]
    exact AdjacencySpace.ext hm hn hy rfl rfl rfl rfl rfl

/-- A set and the same set after a failed attempt. -/
theorem traces_attempt (hf : find.Extends f) (h : r.resolved find uid = false) (t : ℕ)
    (s : AdjacencySpace) :
    Traces f uid r ((r.memberOp find uid).run (r.touch uid t (some s))) s := by
  have hn : ∀ o : MemberOp, (o.run (r.touch uid t (some s))).tport =
      (r.touch uid t (some s)).tport := by
    intro o
    rcases o with _ | ⟨b, _ | rem⟩ | b <;> rfl
  have hy : ∀ o : MemberOp, (o.run (r.touch uid t (some s))).tportType =
      (r.touch uid t (some s)).tportType := by
    intro o
    rcases o with _ | ⟨b, _ | rem⟩ | b <;> rfl
  refine ⟨fun h0 => ?_, fun h0 => ?_, ?_⟩
  · rw [hn]
    simp [AdjacencyRec.touch, h0]
  · rw [hy]
    simp [AdjacencyRec.touch, h0]
  · unfold resolved at h
    cases hnon : r.nonce with
    | none => simp [hnon] at h
    | some nonce =>
      cases hb : find nonce with
      | none =>
        left
        simp [memberOp, hnon, hb, MemberOp.run, AdjacencyRec.touch]
      | some b =>
        -- the member is known: it was the remote end that is not
        right
        simp only [hnon, hb, Bool.or_eq_false_iff, decide_eq_false_iff_not,
          Bool.not_eq_false'] at h
        obtain ⟨⟨hbu, hadd⟩, hrem⟩ := h
        have hrt : r.remTportid ≠ none := fun h0 => by simp [h0] at hrem
        obtain ⟨rem, hend⟩ := Option.ne_none_iff_exists'.mp
          (remEnd_ne_none (f := f) hrt b)
        obtain ⟨rem', hend'⟩ := Option.ne_none_iff_exists'.mp
          (remEnd_ne_none (f := find) hrt b)
        refine ⟨b, rem, ?_, ?_⟩
        · simp [memberOp, hnon, hf nonce b hb, hbu, hadd, hend]
        · simp [memberOp, hnon, hb, hbu, hadd, hend', MemberOp.run, AdjacencyRec.touch]

/-- A record that failed overwrites what its attempt left, when it is applied with
more peers known. -/
theorem absorbs (hf : find.Extends f) (h : r.resolved find uid = false) :
    Deferred.Absorbs (AdjacencyTab.apply f uid) r fun tab => tab.apply find uid r := by
  cases ht : r.tportid with
  | none =>
    intro P tab
    simp only [AdjacencyTab.apply_of_no_tportid _ ht]
  | some t =>
    -- the tables differ in the set of `t` only, and there by traces of `r`
    refine Deferred.Absorbs.of_rel
      (fun tab tab' => ∃ s, tab = tab'.put t s ∧
        Traces f uid r s ((tab'.ptr t).getD AdjacencySpace.new)) ?_ ?_ ?_
    · intro tab
      exact ⟨_, AdjacencyTab.apply_of_tportid tab ht,
        traces_attempt hf h t ((tab.ptr t).getD AdjacencySpace.new)⟩
    · rintro _ tab q ⟨s, rfl, hs⟩
      cases hq : q.tportid with
      | none =>
        rw [AdjacencyTab.apply_of_no_tportid _ hq, AdjacencyTab.apply_of_no_tportid _ hq]
        exact ⟨s, rfl, hs⟩
      | some t' =>
        simp only [AdjacencyTab.apply_of_tportid _ hq]
        rcases eq_or_ne t t' with rfl | htt
        · refine ⟨(q.memberOp f uid).run (q.touch uid t (some s)), ?_, ?_⟩
          · rw [AdjacencyTab.ptr_put_self, AdjacencyTab.put_put, AdjacencyTab.put_put]
          · rw [AdjacencyTab.ptr_put_self]
            exact (hs.touch q t).run _
        · refine ⟨s, ?_, ?_⟩
          · rw [AdjacencyTab.ptr_put_ne _ (Ne.symm htt), AdjacencyTab.put_comm _ htt]
          · rwa [AdjacencyTab.ptr_put_ne _ htt]
    · rintro _ tab ⟨s, rfl, hs⟩
      rw [AdjacencyTab.apply_of_tportid _ ht, AdjacencyTab.apply_of_tportid _ ht,
        AdjacencyTab.ptr_put_self, AdjacencyTab.put_put, hs.eq t]
      rfl

end AdjacencyRec

end Raims
