import Raims.User.Signatures

/-!
# A new password, in place (`change_pass`)

`change_pass` enciphers the signatures and the keys of one user after the other where
they are, and the keys of the service last. When something does not open with the old
password it returns false, and what it wrote so far stays.
-/

namespace Raims

/-! ## What opens -/

/-- A cipher that is there and was made with the key. -/
def Opens (kdf : Kdf) (c : Option HmacCipher) : Prop := ∃ x ∈ c, x.kdf = kdf

/-- A cipher that was made at the position it is deciphered at. -/
def AtCtr (ctr : ℕ) (c : Option HmacCipher) : Prop := ∀ x ∈ c, x.ctr = ctr

namespace UserBuf

variable (u : UserBuf) (pwd : Str)

/-- The keys of the user that are there open. -/
def KeysOpen : Prop :=
  Opens (u.kdf pwd) u.pub ∧ (u.pri.isSome → Opens (u.kdf pwd) u.pri)

/-- The keys of the user are in their places. -/
def InPlace : Prop := AtCtr 0 u.pub ∧ AtCtr (aesCtrOff DSA_CIPHER_KEY_LEN) u.pri

end UserBuf

namespace UserElem

variable (u : UserElem)

/-- What is kept of a user opens. -/
def AllOpens (kdf : Kdf) (pwd : Str) : Prop :=
  Opens kdf u.sig ∧ (∀ r ∈ u.revoke, Opens kdf r) ∧ u.user.KeysOpen pwd

/-- The position after the signatures of a user. -/
def nextCtr (ctr : ℕ) : ℕ :=
  if u.revoke.isSome then ctr + aesCtrOff DSA_SIGN_LEN + aesCtrOff DSA_SIGN_LEN
  else ctr + aesCtrOff DSA_SIGN_LEN

end UserElem

namespace ServiceBuf

/-- What opens, up to the first that does not, is in its place. -/
def Settled (kdf : Kdf) (pwd : Str) : ℕ → List UserElem → Prop
  | _, [] => True
  | ctr, u :: us =>
    Opens kdf u.sig → AtCtr ctr u.sig ∧
      ((∀ r ∈ u.revoke, Opens kdf r) → (∀ r ∈ u.revoke, AtCtr (ctr + aesCtrOff DSA_SIGN_LEN) r) ∧
        (u.user.KeysOpen pwd → u.user.InPlace ∧ Settled kdf pwd (u.nextCtr ctr) us))

variable (s : ServiceBuf) (pwd : Str)

/-- The keys of the service that are there open. -/
def KeysOpen : Prop :=
  Opens (s.kdf pwd) s.pub ∧ (s.pri.isSome → Opens (s.kdf pwd) s.pri)

/-! ## The source -/

/-- The loop of `change_pass`: the users when it returns, and whether it went through. -/
def rewriteLoop (oldKdf newKdf : Kdf) (oldPwd newPwd : Str) :
    ℕ → List UserElem → List UserElem × Bool
  | _, [] => ([], true)
  | ctr, u :: us =>
    match hmacDecrypt oldKdf ctr u.sig with
    | none => (u :: us, false)
    | some plain =>
      let u := { u with sig := hmacEncrypt newKdf ctr plain }
      match changeRevoke oldKdf newKdf (ctr + aesCtrOff DSA_SIGN_LEN) u.revoke with
      | none => (u :: us, false)
      | some (revoke, ctr) =>
        let u := { u with revoke := revoke }
        match u.user.changePass oldPwd newPwd with
        | none => (u :: us, false)
        | some user =>
          let r := rewriteLoop oldKdf newKdf oldPwd newPwd ctr us
          ({ u with user := user } :: r.1, r.2)

/-- `change_pass`: the service when it returns, and what it returns. -/
def rewritePass (oldPwd newPwd : Str) : ServiceBuf × Bool :=
  match s.getPub oldPwd with
  | none => (s, false)
  | some pk =>
    match if s.pri.isSome then s.getPri oldPwd else some .badSig with
    | none => (s, false)
    | some sk =>
      let r := rewriteLoop (s.kdf oldPwd) (s.kdf newPwd) oldPwd newPwd sigCtr s.users
      let s' := { s with users := r.1 }
      if r.2 then (s'.putDsa newPwd ⟨pk, sk⟩ s.pri.isSome, true) else (s', false)

/-- A service that `change_pass` leaves as it is when it returns false: everything opens
with the old password, or the service's own keys do not, or the first signature does not,
or the passwords are equal and what is written again is in its place. -/
def KeptBy (oldPwd newPwd : Str) : Prop :=
  s.KeysOpen oldPwd →
    (∀ u ∈ s.users, u.AllOpens (s.kdf oldPwd) oldPwd) ∨
      (∀ u ∈ s.users.head?, ¬ Opens (s.kdf oldPwd) u.sig) ∨
      (oldPwd = newPwd ∧ Settled (s.kdf oldPwd) oldPwd sigCtr s.users)

end ServiceBuf

/-! ## One cipher -/

section Cipher

variable {kdf kdf' : Kdf} {ctr : ℕ} {c : Option HmacCipher} {plain : Secret}

theorem hmacDecrypt_eq_none : hmacDecrypt kdf ctr c = none ↔ ¬ Opens kdf c := by
  cases c with
  | none =>
    refine ⟨?_, fun _ => rfl⟩
    rintro - ⟨x, hx, -⟩
    cases hx
  | some x =>
    rw [hmacDecrypt]
    split
    · next hkdf =>
        refine ⟨fun h => absurd h (Option.some_ne_none _), fun h => ?_⟩
        exact absurd ⟨x, rfl, hkdf⟩ h
    · next hkdf =>
        refine ⟨?_, fun _ => rfl⟩
        rintro - ⟨y, hy, hopen⟩
        obtain rfl := Option.some.inj hy
        exact hkdf hopen

theorem opens_of_hmacDecrypt (h : hmacDecrypt kdf ctr c = some plain) : Opens kdf c := by
  by_contra hn
  rw [hmacDecrypt_eq_none.2 hn] at h
  cases h

/-- What is enciphered again stays as it was if key and position are the same. -/
theorem hmacEncrypt_eq_iff (h : hmacDecrypt kdf ctr c = some plain) (kdf' : Kdf) :
    hmacEncrypt kdf' ctr plain = c ↔ kdf' = kdf ∧ AtCtr ctr c := by
  obtain ⟨x, rfl, hkdf⟩ := opens_of_hmacDecrypt h
  obtain ⟨k, ctr', secret⟩ := x
  obtain rfl : k = kdf := hkdf
  rw [hmacDecrypt, if_pos rfl] at h
  constructor
  · intro heq
    obtain ⟨rfl, rfl, -⟩ := HmacCipher.mk.inj (Option.some.inj heq)
    refine ⟨rfl, fun y hy => ?_⟩
    obtain rfl := Option.some.inj hy
    rfl
  · rintro ⟨rfl, hctr⟩
    obtain rfl : ctr' = ctr := hctr _ rfl
    rw [if_pos rfl] at h
    rw [← Option.some.inj h]
    rfl

end Cipher

/-! ## The keys of one user -/

namespace UserBuf

variable {u u' : UserBuf} {oldPwd newPwd pwd : Str}

theorem changePass_eq_none : u.changePass oldPwd newPwd = none ↔ ¬ u.KeysOpen oldPwd := by
  rw [KeysOpen]
  cases hpub : u.getPub oldPwd with
  | none =>
    have hnot := hmacDecrypt_eq_none.1 hpub
    simp [changePass, hpub, hnot]
  | some pk =>
    have hopen := opens_of_hmacDecrypt hpub
    cases hpri : u.pri.isSome with
    | false => simp [changePass, hpub, hopen, hpri]
    | true =>
      cases hsk : u.getPri oldPwd with
      | none =>
        have hnot := hmacDecrypt_eq_none.1 hsk
        simp [changePass, hpub, hopen, hpri, hsk, hnot]
      | some sk =>
        have hopenPri := opens_of_hmacDecrypt hsk
        simp [changePass, hpub, hopen, hpri, hsk, hopenPri]

theorem keysOpen_of_changePass (h : u.changePass oldPwd newPwd = some u') :
    u.KeysOpen oldPwd := by
  by_contra hn
  rw [changePass_eq_none.2 hn] at h
  cases h

theorem putDsa_eq_self {dsa : DSA} {hasPri : Bool} :
    u.putDsa pwd dsa hasPri = u ↔ hmacEncrypt (u.kdf pwd) 0 dsa.pk = u.pub ∧
      (hasPri = true → hmacEncrypt (u.kdf pwd) (aesCtrOff DSA_CIPHER_KEY_LEN) dsa.sk = u.pri) := by
  obtain ⟨user, service, create, expires, revoke, pri, pub⟩ := u
  cases hasPri with
  | false => simp [putDsa, kdf]
  | true => simp [putDsa, kdf, and_comm]

/-- With the same password the keys are written as they were if they are in their places. -/
theorem changePass_same (h : u.changePass pwd pwd = some u') : u' = u ↔ u.InPlace := by
  cases hpub : u.getPub pwd with
  | none => simp [changePass, hpub] at h
  | some pk =>
    have hpk := (hmacEncrypt_eq_iff hpub (u.kdf pwd)).trans (and_iff_right rfl)
    cases hpri : u.pri.isSome with
    | false =>
      have hu' : u.putDsa pwd ⟨pk, .badSig⟩ false = u' := by
        simpa [changePass, hpub, hpri] using h
      rw [← hu', putDsa_eq_self, hpk, InPlace]
      refine and_congr_right fun _ =>
        ⟨fun _ x hx => ?_, fun _ hf => absurd hf Bool.false_ne_true⟩
      have hnone : u.pri = none := Option.not_isSome_iff_eq_none.1 (hpri ▸ Bool.false_ne_true)
      rw [hnone] at hx
      cases hx
    | true =>
      cases hsk : u.getPri pwd with
      | none => simp [changePass, hpub, hpri, hsk] at h
      | some sk =>
        have hu' : u.putDsa pwd ⟨pk, sk⟩ true = u' := by
          simpa [changePass, hpub, hpri, hsk] using h
        have hsk' := (hmacEncrypt_eq_iff hsk (u.kdf pwd)).trans (and_iff_right rfl)
        rw [Nat.zero_add] at hsk'
        rw [← hu', putDsa_eq_self, hpk, InPlace, hsk']
        exact and_congr_right fun _ => ⟨fun h => h rfl, fun h _ => h⟩

end UserBuf

/-! ## The loop -/

namespace ServiceBuf

variable {oldKdf newKdf kdf : Kdf} {oldPwd newPwd pwd : Str} {ctr : ℕ} {u : UserElem}
  {us : List UserElem}

theorem changeRevoke_eq_none {r : Option (Option HmacCipher)} :
    changeRevoke oldKdf newKdf ctr r = none ↔ ¬ ∀ c ∈ r, Opens oldKdf c := by
  cases r with
  | none => simp [changeRevoke]
  | some c =>
    rw [changeRevoke, Option.map_eq_none_iff, hmacDecrypt_eq_none]
    simp

theorem opens_of_changeRevoke {r : Option (Option HmacCipher)}
    {p : Option (Option HmacCipher) × ℕ} (h : changeRevoke oldKdf newKdf ctr r = some p) :
    ∀ c ∈ r, Opens oldKdf c := by
  by_contra hn
  rw [changeRevoke_eq_none.2 hn] at h
  cases h

/-- A revocation that is written again, and the position after it. -/
theorem changeRevoke_some {r r' : Option (Option HmacCipher)} {ctr' : ℕ}
    (h : changeRevoke oldKdf newKdf ctr r = some (r', ctr')) :
    ctr' = (if r.isSome then ctr + aesCtrOff DSA_SIGN_LEN else ctr) ∧
      (r' = r ↔ ∀ c ∈ r, newKdf = oldKdf ∧ AtCtr ctr c) := by
  cases r with
  | none =>
    obtain ⟨rfl, rfl⟩ := Prod.mk.inj (Option.some.inj h)
    simp
  | some c =>
    obtain ⟨plain, hplain, heq⟩ := Option.map_eq_some_iff.1 h
    obtain ⟨rfl, rfl⟩ := Prod.mk.inj heq
    refine ⟨rfl, ?_⟩
    rw [Option.some.injEq, hmacEncrypt_eq_iff hplain]
    simp

/-- The loop goes through if everything opens. -/
theorem rewriteLoop_ok :
    (rewriteLoop oldKdf newKdf oldPwd newPwd ctr us).2 = true ↔
      ∀ u ∈ us, u.AllOpens oldKdf oldPwd := by
  induction us generalizing ctr with
  | nil => exact ⟨fun _ u hu => absurd hu List.not_mem_nil, fun _ => rfl⟩
  | cons u us ih =>
    rw [List.forall_mem_cons, rewriteLoop, UserElem.AllOpens]
    cases hsig : hmacDecrypt oldKdf ctr u.sig with
    | none =>
      have hnot := hmacDecrypt_eq_none.1 hsig
      exact ⟨fun h => absurd h Bool.false_ne_true, fun h => absurd h.1.1 hnot⟩
    | some plain =>
      rw [and_iff_right (opens_of_hmacDecrypt hsig)]
      dsimp only
      cases hrevoke : changeRevoke oldKdf newKdf (ctr + aesCtrOff DSA_SIGN_LEN) u.revoke with
      | none =>
        have hnot := changeRevoke_eq_none.1 hrevoke
        exact ⟨fun h => absurd h Bool.false_ne_true, fun h => absurd h.1.1 hnot⟩
      | some r =>
        rw [and_iff_right (opens_of_changeRevoke hrevoke)]
        dsimp only
        cases hchange : u.user.changePass oldPwd newPwd with
        | none =>
          have hnot := UserBuf.changePass_eq_none.1 hchange
          exact ⟨fun h => absurd h Bool.false_ne_true, fun h => absurd h.1 hnot⟩
        | some user =>
          rw [and_iff_right (UserBuf.keysOpen_of_changePass hchange)]
          exact ih

theorem elem_eq_iff {user : UserBuf} {sig : Option HmacCipher}
    {revoke : Option (Option HmacCipher)} :
    (⟨user, sig, revoke⟩ : UserElem) = u ↔ sig = u.sig ∧ revoke = u.revoke ∧ user = u.user := by
  obtain ⟨user', sig', revoke'⟩ := u
  rw [UserElem.mk.injEq]
  tauto

/-- With the same password the loop leaves the users as they are if what it writes again is
in its place. -/
theorem rewriteLoop_same :
    (rewriteLoop kdf kdf pwd pwd ctr us).1 = us ↔ Settled kdf pwd ctr us := by
  induction us generalizing ctr with
  | nil => exact ⟨fun _ => trivial, fun _ => rfl⟩
  | cons u us ih =>
    rw [rewriteLoop, Settled]
    cases hsig : hmacDecrypt kdf ctr u.sig with
    | none =>
      have hnot := hmacDecrypt_eq_none.1 hsig
      exact ⟨fun _ h => absurd h hnot, fun _ => rfl⟩
    | some plain =>
      have hsame := (hmacEncrypt_eq_iff hsig kdf).trans (and_iff_right rfl)
      rw [forall_prop_of_true (opens_of_hmacDecrypt hsig), ← hsame]
      dsimp only
      cases hrevoke : changeRevoke kdf kdf (ctr + aesCtrOff DSA_SIGN_LEN) u.revoke with
      | none =>
        have hnot := changeRevoke_eq_none.1 hrevoke
        rw [List.cons.injEq, and_iff_left rfl, elem_eq_iff]
        refine and_congr_right fun _ => ⟨fun _ h => absurd h hnot, fun _ => ⟨rfl, rfl⟩⟩
      | some r =>
        obtain ⟨revoke, ctr'⟩ := r
        obtain ⟨rfl, hrevokeEq⟩ := changeRevoke_some hrevoke
        simp only [true_and] at hrevokeEq
        rw [forall_prop_of_true (opens_of_changeRevoke hrevoke), ← hrevokeEq]
        dsimp only
        cases hchange : u.user.changePass pwd pwd with
        | none =>
          have hnot := UserBuf.changePass_eq_none.1 hchange
          dsimp only
          rw [List.cons.injEq, and_iff_left rfl, elem_eq_iff]
          refine and_congr_right fun _ => and_congr_right fun _ => ?_
          exact ⟨fun _ h => absurd h hnot, fun _ => rfl⟩
        | some user =>
          dsimp only
          rw [forall_prop_of_true (UserBuf.keysOpen_of_changePass hchange),
            List.cons.injEq, elem_eq_iff, UserBuf.changePass_same hchange, and_assoc,
            and_assoc]
          refine and_congr_right fun _ => and_congr_right fun _ => ?_
          exact and_congr_right fun _ => ih

/-- With another key the loop leaves the users as they are if the first signature does not
open. -/
theorem rewriteLoop_other (hne : newKdf ≠ oldKdf) :
    (rewriteLoop oldKdf newKdf oldPwd newPwd ctr us).1 = us ↔
      ∀ u ∈ us.head?, ¬ Opens oldKdf u.sig := by
  cases us with
  | nil => exact ⟨fun _ u hu => absurd hu (Option.not_mem_none u), fun _ => rfl⟩
  | cons u us =>
    have hhead : (∀ x ∈ (u :: us).head?, ¬ Opens oldKdf x.sig) ↔ ¬ Opens oldKdf u.sig := by
      simp
    rw [hhead, rewriteLoop]
    cases hsig : hmacDecrypt oldKdf ctr u.sig with
    | none => exact ⟨fun _ => hmacDecrypt_eq_none.1 hsig, fun _ => rfl⟩
    | some plain =>
      have hwritten : hmacEncrypt newKdf ctr plain ≠ u.sig :=
        fun heq => hne ((hmacEncrypt_eq_iff hsig _).1 heq).1
      dsimp only
      refine ⟨fun heq => ?_, fun hn => absurd (opens_of_hmacDecrypt hsig) hn⟩
      refine absurd ?_ hwritten
      -- wherever the loop stops, the signature is the one it wrote
      cases hrevoke : changeRevoke oldKdf newKdf (ctr + aesCtrOff DSA_SIGN_LEN) u.revoke with
      | none =>
        rw [hrevoke] at heq
        exact (elem_eq_iff.1 (List.cons.inj heq).1).1
      | some r =>
        rw [hrevoke] at heq
        cases hchange : u.user.changePass oldPwd newPwd with
        | none =>
          dsimp only at heq
          rw [hchange] at heq
          exact (elem_eq_iff.1 (List.cons.inj heq).1).1
        | some user =>
          dsimp only at heq
          rw [hchange] at heq
          exact (elem_eq_iff.1 (List.cons.inj heq).1).1

/-! ## The service -/

variable {s : ServiceBuf}

theorem rewritePass_of_not_keysOpen (h : ¬ s.KeysOpen oldPwd) :
    s.rewritePass oldPwd newPwd = (s, false) := by
  rw [rewritePass]
  cases hpub : s.getPub oldPwd with
  | none => rfl
  | some pk =>
    cases hpri : s.pri.isSome with
    | false =>
      refine absurd ⟨opens_of_hmacDecrypt hpub, fun h => ?_⟩ h
      rw [hpri] at h
      exact absurd h Bool.false_ne_true
    | true =>
      cases hsk : s.getPri oldPwd with
      | none => rfl
      | some sk => exact absurd ⟨opens_of_hmacDecrypt hpub, fun _ => opens_of_hmacDecrypt hsk⟩ h

theorem rewritePass_of_keysOpen (h : s.KeysOpen oldPwd) (newPwd : Str) :
    ∃ dsa, s.rewritePass oldPwd newPwd =
      let r := rewriteLoop (s.kdf oldPwd) (s.kdf newPwd) oldPwd newPwd sigCtr s.users
      let s' := { s with users := r.1 }
      if r.2 then (s'.putDsa newPwd dsa s.pri.isSome, true) else (s', false) := by
  rw [rewritePass]
  cases hpub : s.getPub oldPwd with
  | none => exact absurd h.1 (hmacDecrypt_eq_none.1 hpub)
  | some pk =>
    cases hpri : s.pri.isSome with
    | false => exact ⟨⟨pk, .badSig⟩, rfl⟩
    | true =>
      cases hsk : s.getPri oldPwd with
      | none => exact absurd (h.2 hpri) (hmacDecrypt_eq_none.1 hsk)
      | some sk => exact ⟨⟨pk, sk⟩, rfl⟩

theorem kdf_eq_iff : s.kdf newPwd = s.kdf oldPwd ↔ oldPwd = newPwd := by
  rw [kdf, kdf, Kdf.svc.injEq]
  exact ⟨fun h => h.2.2.symm, fun h => ⟨rfl, rfl, h.symm⟩⟩

/-- What the loop leaves of the users. -/
theorem rewriteLoop_kept (s : ServiceBuf) (oldPwd newPwd : Str) :
    (rewriteLoop (s.kdf oldPwd) (s.kdf newPwd) oldPwd newPwd sigCtr s.users).1 = s.users ↔
      (∀ u ∈ s.users.head?, ¬ Opens (s.kdf oldPwd) u.sig) ∨
        (oldPwd = newPwd ∧ Settled (s.kdf oldPwd) oldPwd sigCtr s.users) := by
  by_cases hpwd : oldPwd = newPwd
  · subst hpwd
    rw [rewriteLoop_same]
    refine ⟨fun h => Or.inr ⟨rfl, h⟩, ?_⟩
    rintro (hhead | ⟨-, h⟩)
    · cases hus : s.users with
      | nil => trivial
      | cons u us =>
        rw [hus] at hhead
        exact fun hopen => absurd hopen (hhead u rfl)
    · exact h
  · have hne : s.kdf newPwd ≠ s.kdf oldPwd := fun h => hpwd (kdf_eq_iff.1 h)
    rw [rewriteLoop_other hne]
    exact ⟨Or.inl, fun h => h.resolve_right fun h => hpwd h.1⟩

/-- `change_pass` that returns false **leaves the service as it was** exactly when it wrote
nothing before it stopped, or nothing that is different. -/
theorem rewritePass_keeps_iff (s : ServiceBuf) (oldPwd newPwd : Str) :
    ((s.rewritePass oldPwd newPwd).2 = false → (s.rewritePass oldPwd newPwd).1 = s) ↔
      s.KeptBy oldPwd newPwd := by
  rw [KeptBy]
  by_cases hkeys : s.KeysOpen oldPwd
  · obtain ⟨dsa, hpass⟩ := rewritePass_of_keysOpen hkeys newPwd
    rw [forall_prop_of_true hkeys, hpass]
    have hok : (rewriteLoop (s.kdf oldPwd) (s.kdf newPwd) oldPwd newPwd sigCtr s.users).2 = true ↔
        ∀ u ∈ s.users, u.AllOpens (s.kdf oldPwd) oldPwd := rewriteLoop_ok
    have hkept := rewriteLoop_kept s oldPwd newPwd
    dsimp only
    cases hr : (rewriteLoop (s.kdf oldPwd) (s.kdf newPwd) oldPwd newPwd sigCtr s.users).2 with
    | true =>
      rw [if_pos rfl]
      exact ⟨fun _ => Or.inl (hok.1 hr), fun _ h => absurd h.symm Bool.false_ne_true⟩
    | false =>
      have hnot : ¬ ∀ u ∈ s.users, u.AllOpens (s.kdf oldPwd) oldPwd := by
        rw [← hok, hr]
        exact Bool.false_ne_true
      rw [if_neg Bool.false_ne_true, or_iff_right hnot, ← hkept]
      constructor
      · intro h
        exact congrArg users (h rfl)
      · intro h _
        dsimp only
        rw [h]
  · rw [rewritePass_of_not_keysOpen hkeys]
    exact ⟨fun _ h => absurd h hkeys, fun _ _ => rfl⟩

/-- A service whose second user was added and not signed yet. -/
def halfSigned : ServiceBuf :=
  let a := (⟨[97], [83], [], [], [], none, none⟩ : UserBuf).genKey [1] 1 [7]
  let b := (⟨[98], [83], [], [], [], none, none⟩ : UserBuf).genKey [2] 2 [7]
  let s := (⟨[83], [1], none, none, []⟩ : ServiceBuf).putDsa [7] (DSA.genKey 0) true
  let sig := (DSA.genKey 0).sign (a.userHmac (.pk 1))
  { s with users := [⟨a, hmacEncrypt (s.kdf [7]) sigCtr sig, none⟩, ⟨b, none, none⟩] }

/-- The second user has no signature, and the first has one with the new password. -/
theorem first_signature_rewritten :
    ¬ ∀ (s : ServiceBuf) (oldPwd newPwd : Str),
      (s.rewritePass oldPwd newPwd).2 = false → (s.rewritePass oldPwd newPwd).1 = s := by
  intro h
  have hsame := congrArg (fun s => s.users.map UserElem.sig) (h halfSigned [7] [8] (by decide))
  exact absurd hsame (by decide)

/-- The same loop, when it goes through. -/
theorem changeLoop_eq_rewriteLoop :
    changeLoop oldKdf newKdf oldPwd newPwd ctr us =
      if (rewriteLoop oldKdf newKdf oldPwd newPwd ctr us).2 then
        some (rewriteLoop oldKdf newKdf oldPwd newPwd ctr us).1
      else none := by
  induction us generalizing ctr with
  | nil => rfl
  | cons u us ih =>
    rw [changeLoop, rewriteLoop]
    cases hsig : hmacDecrypt oldKdf ctr u.sig with
    | none => rfl
    | some plain =>
      cases hrevoke : changeRevoke oldKdf newKdf (ctr + aesCtrOff DSA_SIGN_LEN) u.revoke with
      | none => simp [hrevoke]
      | some r =>
        cases hchange : u.user.changePass oldPwd newPwd with
        | none => simp [hrevoke, hchange]
        | some user =>
          simp only [hrevoke, hchange, Option.bind_eq_bind, Option.bind_some, ih]
          split
          · rfl
          · rfl

/-- `change_pass` that returns true leaves the service with the new password. -/
theorem changePass_eq_rewritePass (s : ServiceBuf) (oldPwd newPwd : Str) :
    s.changePass oldPwd newPwd =
      if (s.rewritePass oldPwd newPwd).2 then some (s.rewritePass oldPwd newPwd).1 else none := by
  rw [changePass, rewritePass]
  cases hpub : s.getPub oldPwd with
  | none => rfl
  | some pk =>
    cases hpri : s.pri.isSome with
    | false =>
      simp only [Bool.false_eq_true, if_false, Option.bind_eq_bind, Option.bind_some,
        changeLoop_eq_rewriteLoop]
      cases (rewriteLoop (s.kdf oldPwd) (s.kdf newPwd) oldPwd newPwd sigCtr s.users).2 with
      | false => rfl
      | true => rfl
    | true =>
      cases hsk : s.getPri oldPwd with
      | none => rfl
      | some sk =>
        simp only [if_true, Option.bind_eq_bind, Option.bind_some,
          changeLoop_eq_rewriteLoop]
        cases (rewriteLoop (s.kdf oldPwd) (s.kdf newPwd) oldPwd newPwd sigCtr s.users).2 with
        | false => rfl
        | true => rfl

end ServiceBuf

end Raims
