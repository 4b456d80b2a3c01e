import Raims.User.ServiceBuf

/-!
# Signed, written and read back

The position of a signature is that of its user in the sorted list, with one more
for each user before it that is revoked. It is read back by name: with two users of
one name the second is left without a signature.
-/

namespace Raims

/-! ## Positions -/

@[simp] theorem hmacDecrypt_hmacEncrypt (kdf : Kdf) (ctr : ℕ) (plain : Secret) :
    hmacDecrypt kdf ctr (hmacEncrypt kdf ctr plain) = some plain := by
  simp [hmacDecrypt, hmacEncrypt]

@[simp] theorem hmacDecrypt_none (kdf : Kdf) (ctr : ℕ) : hmacDecrypt kdf ctr none = none := rfl

theorem DSA.verify_sign (key : ℕ) (digest : UserDigest) :
    DSA.verify (.pk key) digest ((DSA.genKey key).sign digest) = true := by
  simp [DSA.verify, DSA.sign, DSA.genKey]

namespace UserBuf

variable {u : UserBuf}

theorem getPub_putDsa (pwd : Str) (dsa : DSA) (hasPri : Bool) :
    (u.putDsa pwd dsa hasPri).getPub pwd = some dsa.pk := by
  cases hasPri <;> exact hmacDecrypt_hmacEncrypt _ _ _

theorem userHmac_putDsa (pwd : Str) (dsa : DSA) (hasPri : Bool) (pk : Secret) :
    (u.putDsa pwd dsa hasPri).userHmac pk = u.userHmac pk := by
  cases hasPri <;> cases pk <;> rfl

theorem revokeHmac_putDsa (pwd : Str) (dsa : DSA) (hasPri : Bool) (pk : Secret) :
    (u.putDsa pwd dsa hasPri).revokeHmac pk = u.revokeHmac pk := by
  cases hasPri <;> cases pk <;> rfl

end UserBuf

/-- Keys that were put together were put with the password that opens one of them. -/
theorem PutKeys.of_open {kdf : Str → Kdf} {off : ℕ} {pub pri : Option HmacCipher}
    (h : PutKeys kdf off pub pri) {pwd : Str} {pk : Secret}
    (hpub : hmacDecrypt (kdf pwd) 0 pub = some pk) (hpri : pri.isSome = true) :
    ∃ key, pk = .pk key ∧ pub = hmacEncrypt (kdf pwd) 0 (.pk key) ∧
      pri = hmacEncrypt (kdf pwd) off (.sk key) := by
  obtain ⟨p, key, hp, hs⟩ := h
  rcases hp with rfl | rfl
  · simp at hpub
  rcases hs with rfl | rfl
  · simp at hpri
  by_cases hk : kdf p = kdf pwd
  · simp only [hmacDecrypt, hk, if_true, Option.some.injEq] at hpub
    rw [hk]
    exact ⟨key, hpub.symm, rfl, rfl⟩
  · simp [hmacDecrypt, hk] at hpub

theorem PutKeys.pri_of_pub {kdf : Str → Kdf} {off : ℕ} {pub pri : Option HmacCipher}
    (h : PutKeys kdf off pub pri) {pwd : Str} {pk : Secret}
    (hpub : hmacDecrypt (kdf pwd) 0 pub = some pk) (hpri : pri.isSome = true) :
    ∃ key, pk = .pk key ∧ hmacDecrypt (kdf pwd) off pri = some (.sk key) := by
  obtain ⟨key, hpk, -, hsk⟩ := h.of_open hpub hpri
  refine ⟨key, hpk, ?_⟩
  rw [hsk, hmacDecrypt_hmacEncrypt]

namespace ServiceBuf

variable {kdf : Kdf} {pwd : Str} {svcPk : Secret}

/-- What `check_signatures` asks of one user. -/
theorem checkLoop_cons {ctr : ℕ} {u : UserElem} {us : List UserElem} :
    checkLoop kdf pwd svcPk ctr (u :: us) = true ↔
      ∃ pk sig, u.user.getPub pwd = some pk ∧ hmacDecrypt kdf ctr u.sig = some sig ∧
        DSA.verify svcPk (u.user.userHmac pk) sig = true ∧
        (u.revoke = none ∧ checkLoop kdf pwd svcPk (ctr + aesCtrOff DSA_SIGN_LEN) us = true ∨
          ∃ r rsig, u.revoke = some r ∧
            hmacDecrypt kdf (ctr + aesCtrOff DSA_SIGN_LEN) r = some rsig ∧
            DSA.verify svcPk (u.user.revokeHmac pk) rsig = true ∧
            checkLoop kdf pwd svcPk
              (ctr + aesCtrOff DSA_SIGN_LEN + aesCtrOff DSA_SIGN_LEN) us = true) := by
  rw [checkLoop]
  cases hpk : u.user.getPub pwd with
  | none => simp
  | some pk =>
    cases hsig : hmacDecrypt kdf ctr u.sig with
    | none => simp
    | some sig =>
      cases hr : u.revoke with
      | none => simp
      | some r =>
        cases hrs : hmacDecrypt kdf (ctr + aesCtrOff DSA_SIGN_LEN) r with
        | none => simp [hrs]
        | some rsig => simp [hrs]

theorem sig_of_checkLoop {ctr : ℕ} {us : List UserElem}
    (h : checkLoop kdf pwd svcPk ctr us = true) : ∀ u ∈ us, u.sig ≠ none := by
  induction us generalizing ctr with
  | nil => simp
  | cons u us ih =>
    obtain ⟨pk, sig, -, hsig, -, hrest⟩ := checkLoop_cons.mp h
    intro x hx
    rcases List.mem_cons.mp hx with rfl | hx
    · intro hnone
      rw [hnone] at hsig
      simp at hsig
    · rcases hrest with ⟨-, hrest⟩ | ⟨r, rsig, -, -, -, hrest⟩
      · exact ih hrest x hx
      · exact ih hrest x hx

/-- What `sign_users` signs is checked at the same positions. -/
theorem signLoop_spec {key ctr : ℕ} {us us' : List UserElem}
    (h : signLoop kdf pwd (DSA.genKey key) ctr us = some us') :
    us'.map (fun u => (u.user, u.revoke.isSome)) = us.map (fun u => (u.user, u.revoke.isSome)) ∧
      checkLoop kdf pwd (.pk key) ctr us' = true := by
  induction us generalizing ctr us' with
  | nil =>
    obtain rfl : [] = us' := Option.some.inj h
    exact ⟨rfl, rfl⟩
  | cons u us ih =>
    rw [signLoop] at h
    simp only [Option.bind_eq_bind, Option.bind_eq_some_iff] at h
    obtain ⟨pk, hpk, rest, hrest, heq⟩ := h
    obtain rfl := Option.some.inj heq
    obtain ⟨hsame, hcheck⟩ := ih hrest
    refine ⟨?_, checkLoop_cons.mpr ⟨pk, _, hpk, hmacDecrypt_hmacEncrypt _ _ _,
      DSA.verify_sign _ _, ?_⟩⟩
    · rw [List.map_cons, List.map_cons, hsame]
      simp
    · cases hr : u.revoke with
      | none =>
        simp only [hr] at hcheck
        exact Or.inl ⟨rfl, hcheck⟩
      | some r =>
        simp only [hr] at hcheck
        exact Or.inr ⟨_, _, rfl, hmacDecrypt_hmacEncrypt _ _ _, DSA.verify_sign _ _, hcheck⟩

/-! ## A new password -/

theorem getPub_putDsa (s : ServiceBuf) (pwd : Str) (dsa : DSA) (hasPri : Bool) :
    (s.putDsa pwd dsa hasPri).getPub pwd = some dsa.pk := by
  cases hasPri <;> exact hmacDecrypt_hmacEncrypt _ _ _

theorem putDsa_same (s : ServiceBuf) (pwd : Str) (dsa : DSA) (hasPri : Bool) :
    (s.putDsa pwd dsa hasPri).users = s.users ∧ (s.putDsa pwd dsa hasPri).kdf = s.kdf := by
  cases hasPri <;> exact ⟨rfl, rfl⟩

theorem changeUser {u : UserBuf} {oldPwd : Str} (newPwd : Str) {pk : Secret}
    (hkeys : PutKeys u.kdf (aesCtrOff DSA_CIPHER_KEY_LEN) u.pub u.pri)
    (hpk : u.getPub oldPwd = some pk) :
    ∃ dsa hasPri, dsa.pk = pk ∧ u.changePass oldPwd newPwd = some (u.putDsa newPwd dsa hasPri) := by
  unfold UserBuf.changePass
  rw [hpk]
  by_cases hpri : u.pri.isSome = true
  · obtain ⟨key, -, hsk⟩ := hkeys.pri_of_pub hpk hpri
    have hsk : u.getPri oldPwd = some (.sk key) := by
      unfold UserBuf.getPri
      rw [Nat.zero_add]
      exact hsk
    refine ⟨⟨pk, .sk key⟩, true, rfl, ?_⟩
    simp [hpri, hsk]
  · refine ⟨⟨pk, .badSig⟩, false, rfl, ?_⟩
    simp [hpri]

/-- `change_pass` goes over the same positions as `check_signatures`. -/
theorem changeLoop_spec (newKdf : Kdf) (newPwd : Str) {ctr : ℕ} {us : List UserElem}
    (hkeys : ∀ u ∈ us, PutKeys u.user.kdf (aesCtrOff DSA_CIPHER_KEY_LEN) u.user.pub u.user.pri)
    (h : checkLoop kdf pwd svcPk ctr us = true) :
    ∃ us', changeLoop kdf newKdf pwd newPwd ctr us = some us' ∧
      checkLoop newKdf newPwd svcPk ctr us' = true := by
  induction us generalizing ctr with
  | nil => exact ⟨[], rfl, rfl⟩
  | cons u us ih =>
    have ih := fun {c} => @ih c fun x hx => hkeys x (List.mem_cons_of_mem u hx)
    obtain ⟨pk, sig, hpk, hsig, hver, hrest⟩ := checkLoop_cons.mp h
    obtain ⟨dsa, hasPri, rfl, hchange⟩ :=
      changeUser newPwd (hkeys u List.mem_cons_self) hpk
    rcases hrest with ⟨hnone, hcheck⟩ | ⟨r, rsig, hsome, hrsig, hrver, hcheck⟩
    · obtain ⟨us', hus', hcheck'⟩ := ih hcheck
      refine ⟨⟨u.user.putDsa newPwd dsa hasPri, hmacEncrypt newKdf ctr sig, none⟩ :: us', ?_,
        checkLoop_cons.mpr ⟨dsa.pk, sig, UserBuf.getPub_putDsa _ _ _,
          hmacDecrypt_hmacEncrypt _ _ _, ?_, Or.inl ⟨rfl, hcheck'⟩⟩⟩
      · simp [changeLoop, hsig, hnone, changeRevoke, hchange, hus']
      · rw [UserBuf.userHmac_putDsa]
        exact hver
    · obtain ⟨us', hus', hcheck'⟩ := ih hcheck
      refine ⟨⟨u.user.putDsa newPwd dsa hasPri, hmacEncrypt newKdf ctr sig,
          some (hmacEncrypt newKdf (ctr + aesCtrOff DSA_SIGN_LEN) rsig)⟩ :: us', ?_,
        checkLoop_cons.mpr ⟨dsa.pk, sig, UserBuf.getPub_putDsa _ _ _,
          hmacDecrypt_hmacEncrypt _ _ _, ?_, Or.inr ⟨_, rsig, rfl,
            hmacDecrypt_hmacEncrypt _ _ _, ?_, hcheck'⟩⟩⟩
      · simp [changeLoop, hsig, hsome, changeRevoke, hrsig, hchange, hus']
      · rw [UserBuf.userHmac_putDsa]
        exact hver
      · rw [UserBuf.revokeHmac_putDsa]
        exact hrver

/-! ## Read back by name -/

/-- `cmp_bytes` is the lexicographic order. -/
theorem cmpBytes_compare (s t : Str) : cmpBytes s t = compare s t := by
  induction s generalizing t with
  | nil => cases t <;> rfl
  | cons x s ih =>
    cases t with
    | nil => rfl
    | cons y t =>
      rw [cmpBytes, List.compare_cons_cons, ih]
      show _ = (compareOfLessAndEq x y).then _
      unfold compareOfLessAndEq
      by_cases hxy : x < y
      · simp [hxy]
      · by_cases hyx : y < x
        · have hne : x ≠ y := by
            rintro rfl
            exact UInt8.lt_irrefl x hyx
          simp [hxy, hyx, hne]
        · have heq : x = y := UInt8.le_antisymm (UInt8.not_lt.mp hyx) (UInt8.not_lt.mp hxy)
          simp [heq]

theorem cmpBytes_eq {s t : Str} (h : cmpBytes s t = .eq) : s = t := by
  rw [cmpBytes_compare] at h
  exact Std.LawfulEqOrd.eq_of_compare h

theorem cmpBytes_swap {s t : Str} : cmpBytes s t = .lt → cmpBytes t s = .gt := by
  rw [cmpBytes_compare, cmpBytes_compare]
  exact Std.OrientedCmp.gt_of_lt

/-- Two users in the order of their names. -/
def NameLe (x y : UserBuf) : Prop := cmpBytes x.user y.user ≠ .gt

theorem nameLe_of_sorted {us : List UserElem}
    (h : us.Pairwise fun x y => cmpUserCreate x.user y.user ≠ .gt) :
    (us.map fun u => u.user).Pairwise NameLe := by
  rw [List.pairwise_map]
  refine h.imp fun {x y} hxy hgt => hxy ?_
  rw [cmpUserCreate, hgt]
  rfl

theorem pairwise_nameLe {us : List UserElem} : (us.map fun u => u.user).Pairwise NameLe ↔
    (us.map fun u => u.user.user).Pairwise fun x y => cmpBytes x y ≠ .gt := by
  rw [List.pairwise_map, List.pairwise_map]
  rfl

theorem genKeys_name (fresh : UserBuf → Str × ℕ) (pwd : Str) (us : List UserElem) :
    (genKeys fresh pwd us).map (fun u => u.user.user) = us.map fun u => u.user.user := by
  unfold genKeys
  rw [List.map_map]
  refine List.map_congr_left fun u _ => ?_
  show (if _ then _ else _ : UserElem).user.user = _
  split <;> rfl

theorem mem_genKeys {fresh : UserBuf → Str × ℕ} {us : List UserElem} {v : UserElem}
    (h : v ∈ genKeys fresh pwd us) :
    ∃ u ∈ us, v.revoke = u.revoke ∧ v.user.revoke = u.user.revoke ∧
      v.user.service = u.user.service := by
  obtain ⟨u, hu, rfl⟩ := List.mem_map.mp h
  refine ⟨u, hu, ?_⟩
  split <;> exact ⟨rfl, rfl, rfl⟩

/-- With one user of each name there is one way to sort them. -/
theorem eq_of_perm_of_names {us us' : List UserBuf} (hperm : us.Perm us')
    (hnodup : (us'.map fun u => u.user).Nodup) (h : us.Pairwise NameLe)
    (h' : us'.Pairwise NameLe) : us = us' := by
  refine hperm.eq_of_pairwise (fun x y hx hy hxy hyx => ?_) h h'
  have hname : x.user = y.user := by
    cases hcmp : cmpBytes x.user y.user with
    | lt => exact absurd (cmpBytes_swap hcmp) hyx
    | eq => exact cmpBytes_eq hcmp
    | gt => exact absurd hcmp hxy
  exact List.inj_on_of_nodup_map hnodup (hperm.mem_iff.mp hx) hy hname

theorem updateFirst_append {p : UserElem → Bool} {f : UserElem → UserElem}
    {us vs : List UserElem} (h : ∀ u ∈ us, p u = false) :
    updateFirst p f (us ++ vs) = us ++ updateFirst p f vs := by
  induction us with
  | nil => rfl
  | cons u us ih =>
    rw [List.cons_append, updateFirst, h u List.mem_cons_self, if_neg (by simp),
      ih fun x hx => h x (List.mem_cons_of_mem u hx), List.cons_append]

/-- A user read from the configuration, with its signature. -/
def signed (u : UserElem) : UserElem := { UserElem.new u.user with sig := u.sig }

/-- The pairs of `users` in the order of the list. -/
theorem foldl_loadSig (done us : List UserElem)
    (h : (done.map (fun u => u.user.user) ++ us.map fun u => u.user.user).Nodup) :
    (us.map fun u => (u.user.user, u.sig)).foldl loadSig
        (done ++ us.map fun u => UserElem.new u.user) = done ++ us.map signed := by
  induction us generalizing done with
  | nil => rfl
  | cons u us ih =>
    have hstep : loadSig (done ++ (u :: us).map fun u => UserElem.new u.user)
        (u.user.user, u.sig) =
          (done ++ [signed u]) ++ us.map fun u => UserElem.new u.user := by
      unfold loadSig
      rw [updateFirst_append]
      · simp [updateFirst, UserElem.new, signed]
      · intro x hx
        have hne : x.user.user ≠ u.user.user := by
          have hdisj := (List.nodup_append.mp h).2.2
          exact hdisj x.user.user (List.mem_map_of_mem hx) u.user.user (by simp)
        simpa using hne
    show ((u.user.user, u.sig) :: us.map fun u => (u.user.user, u.sig)).foldl loadSig
      (done ++ (u :: us).map fun u => UserElem.new u.user) = _
    rw [List.foldl_cons, hstep, ih]
    · simp
    · simpa [signed, UserElem.new] using h

/-- The pairs of `revoke`, one for each revoked user. -/
theorem foldl_loadRevoke (done : List UserElem) {us : List UserElem}
    (hrev : ∀ u ∈ us, u.revoke.isSome = decide (u.user.revoke.length ≠ 0))
    (h : (done.map (fun u => u.user.user) ++ us.map fun u => u.user.user).Nodup) :
    (us.filterMap fun u => u.revoke.map fun r => (u.user.user, r)).foldl loadRevoke
        (done ++ us.map signed) = done ++ us := by
  induction us generalizing done with
  | nil => rfl
  | cons u us ih =>
    have hu := hrev u List.mem_cons_self
    have hnext : ((done ++ [u]).map (fun u => u.user.user) ++
        us.map fun u => u.user.user).Nodup := by simpa using h
    have ih := ih (done ++ [u]) (fun x hx => hrev x (List.mem_cons_of_mem u hx)) hnext
    rw [List.append_assoc, List.append_assoc, List.singleton_append, List.singleton_append] at ih
    obtain ⟨user, sig, revoke⟩ := u
    cases revoke with
    | none =>
      have hlen : user.revoke.length = 0 := by simpa using hu
      have hsigned : signed ⟨user, sig, none⟩ = ⟨user, sig, none⟩ := by
        simp [signed, UserElem.new, hlen]
      rw [List.map_cons, hsigned]
      exact ih
    | some r =>
      have hlen : user.revoke.length ≠ 0 := by simpa using hu
      have hsigned : signed ⟨user, sig, some r⟩ = ⟨user, sig, some none⟩ := by
        simp [signed, UserElem.new, hlen]
      have hstep : loadRevoke (done ++ ⟨user, sig, some none⟩ :: us.map signed)
          (user.user, r) = done ++ ⟨user, sig, some r⟩ :: us.map signed := by
        unfold loadRevoke
        rw [updateFirst_append]
        · simp [updateFirst]
        · intro x hx
          have hne : x.user.user ≠ user.user := by
            have hdisj := (List.nodup_append.mp h).2.2
            exact hdisj x.user.user (List.mem_map_of_mem hx) user.user (by simp)
          simp [hne]
      rw [List.map_cons, hsigned, List.filterMap_cons]
      simp only [Option.map_some, List.foldl_cons]
      rw [hstep]
      exact ih

/-- A user with no signature, behind another of the same name. -/
def Unsigned (us : List UserElem) : Prop :=
  ∃ a x b y c, us = a ++ x :: (b ++ y :: c) ∧ x.user.user = y.user.user ∧ y.sig = none

/-- The first one that is found is not the one behind. -/
theorem Unsigned.updateFirst {us : List UserElem} (h : Unsigned us) {p : UserElem → Bool}
    {f : UserElem → UserElem} (hname : ∀ u, (f u).user = u.user)
    (hsig : (∀ u, (f u).sig = u.sig) ∨ ∀ x y : UserElem, x.user.user = y.user.user → p y → p x) :
    Unsigned (updateFirst p f us) := by
  obtain ⟨a, x, b, y, c, rfl, hxy, hy⟩ := h
  induction a with
  | nil =>
    rw [List.nil_append, ServiceBuf.updateFirst]
    by_cases hx : p x = true
    · rw [if_pos hx]
      exact ⟨[], f x, b, y, c, rfl, by rw [hname, hxy], hy⟩
    · rw [if_neg hx]
      have hrest : ∀ b : List UserElem, ∃ b' y' c',
          ServiceBuf.updateFirst p f (b ++ y :: c) = b' ++ y' :: c' ∧
            y'.user.user = y.user.user ∧ y'.sig = none := by
        intro b
        induction b with
        | nil =>
          rw [List.nil_append, ServiceBuf.updateFirst]
          by_cases hpy : p y = true
          · rw [if_pos hpy]
            rcases hsig with hsig | hsig
            · exact ⟨[], f y, c, rfl, by rw [hname], by rw [hsig, hy]⟩
            · exact absurd (hsig x y hxy hpy) hx
          · rw [if_neg hpy]
            exact ⟨[], y, _, rfl, rfl, hy⟩
        | cons z b ih =>
          rw [List.cons_append, ServiceBuf.updateFirst]
          by_cases hz : p z = true
          · rw [if_pos hz]
            exact ⟨f z :: b, y, c, rfl, rfl, hy⟩
          · rw [if_neg hz]
            obtain ⟨b', y', c', heq, hn, hs⟩ := ih
            exact ⟨z :: b', y', c', by rw [heq, List.cons_append], hn, hs⟩
      obtain ⟨b', y', c', heq, hn, hs⟩ := hrest b
      exact ⟨[], x, b', y', c', by rw [heq, List.nil_append], hxy.trans hn.symm, hs⟩
  | cons z a ih =>
    rw [List.cons_append, ServiceBuf.updateFirst]
    by_cases hz : p z = true
    · rw [if_pos hz]
      exact ⟨f z :: a, x, b, y, c, rfl, hxy, hy⟩
    · rw [if_neg hz]
      obtain ⟨a', x', b', y', c', heq, hn, hs⟩ := ih
      exact ⟨z :: a', x', b', y', c', by rw [heq, List.cons_append], hn, hs⟩

theorem Unsigned.loadSig {us : List UserElem} (h : Unsigned us) (p : Str × Option HmacCipher) :
    Unsigned (loadSig us p) := by
  refine h.updateFirst (fun _ => rfl) (Or.inr fun x y hxy hy => ?_)
  simpa [hxy] using hy

theorem Unsigned.loadRevoke {us : List UserElem} (h : Unsigned us)
    (p : Str × Option HmacCipher) : Unsigned (loadRevoke us p) :=
  h.updateFirst (fun _ => rfl) (Or.inl fun _ => rfl)

theorem Unsigned.foldl {us : List UserElem} (h : Unsigned us)
    {load : List UserElem → Str × Option HmacCipher → List UserElem}
    (hload : ∀ us p, Unsigned us → Unsigned (load us p)) (ps : List (Str × Option HmacCipher)) :
    Unsigned (ps.foldl load us) := by
  induction ps generalizing us with
  | nil => exact h
  | cons p ps ih => exact ih (hload us p h)

theorem Unsigned.not_checked {us : List UserElem} (h : Unsigned us) (ctr : ℕ) :
    checkLoop kdf pwd svcPk ctr us = false := by
  obtain ⟨a, x, b, y, c, rfl, -, hy⟩ := h
  rw [← Bool.not_eq_true]
  intro hcheck
  exact sig_of_checkLoop hcheck y (by simp) hy

/-- Two of one name among users that have no signature yet. -/
theorem unsigned_of_not_nodup {us : List UserElem} (hsig : ∀ u ∈ us, u.sig = none)
    (h : ¬ (us.map fun u => u.user.user).Nodup) : Unsigned us := by
  induction us with
  | nil => simp at h
  | cons u us ih =>
    by_cases hmem : u.user.user ∈ us.map fun u => u.user.user
    · obtain ⟨y, hy, hname⟩ := List.mem_map.mp hmem
      obtain ⟨b, c, rfl⟩ := List.append_of_mem hy
      exact ⟨[], u, b, y, c, rfl, hname.symm, hsig y (List.mem_cons_of_mem u hy)⟩
    · have hrest : ¬ (us.map fun u => u.user.user).Nodup := by
        intro hnodup
        exact h (List.nodup_cons.mpr ⟨hmem, hnodup⟩)
      obtain ⟨a, x, b, y, c, rfl, hn, hs⟩ :=
        ih (fun x hx => hsig x (List.mem_cons_of_mem u hx)) hrest
      exact ⟨u :: a, x, b, y, c, rfl, hn, hs⟩

/-- The configuration has the users of the service, in any order. -/
def Written (s : ServiceBuf) (tree : List ConfigUser) : Prop :=
  ((tree.filter fun u => !u.isTemp ∧ u.user.service = s.service).map fun u => u.user).Perm
    (s.users.map fun u => u.user)

/-- The users as they are written next to the service. -/
def writeUsers (s : ServiceBuf) : List ConfigUser := s.users.map fun u => ⟨false, u.user⟩

theorem written_writeUsers {s : ServiceBuf} (h : ∀ u ∈ s.users, u.user.service = s.service) :
    s.Written s.writeUsers := by
  have hall : (s.writeUsers.filter fun u => !u.isTemp ∧ u.user.service = s.service) =
      s.writeUsers := by
    refine List.filter_eq_self.mpr ?_
    intro c hc
    obtain ⟨u, hu, rfl⟩ := List.mem_map.mp hc
    simp [h u hu]
  unfold Written
  rw [hall, writeUsers, List.map_map]
  rfl

/-- The users that `load_service` reads, before the signatures. -/
def readUsers (kv : UserSort) (s : ServiceBuf) (tree : List ConfigUser) : List UserElem :=
  kv.sort ((tree.filter fun u => !u.isTemp ∧ u.user.service = s.service).map
    fun u => UserElem.new u.user)

section Read

variable {kv : UserSort} {s : ServiceBuf} {tree : List ConfigUser}

theorem readUsers_new : ∀ u ∈ readUsers kv s tree, u = UserElem.new u.user := by
  intro u hu
  obtain ⟨x, -, rfl⟩ := List.mem_map.mp ((kv.perm _).mem_iff.mp hu)
  rfl

theorem readUsers_perm (kv : UserSort) (h : Written s tree) :
    ((readUsers kv s tree).map fun u => u.user).Perm (s.users.map fun u => u.user) := by
  refine ((kv.perm _).map _).trans ?_
  rw [List.map_map]
  exact h

theorem loadService_users (h : Written s tree) : (loadService kv tree s.toConfig).users =
    s.toConfig.revoke.foldl loadRevoke (s.toConfig.users.foldl loadSig (readUsers kv s tree)) := by
  show (if _ then _ else _) = _
  split
  · next hnone =>
      have hnone := List.length_eq_zero_iff.mp hnone
      have htree : (tree.filter fun u => !u.isTemp ∧ u.user.service = s.service) = [] :=
        List.map_eq_nil_iff.mp hnone
      have husers : s.users = [] := by
        have hp := h
        unfold Written at hp
        rw [htree] at hp
        exact List.map_eq_nil_iff.mp hp.symm.eq_nil
      have hread : readUsers kv s tree = [] := by
        unfold readUsers
        rw [htree]
        exact (kv.perm []).eq_nil
      rw [hnone, hread]
      simp [toConfig, husers]
  · rfl

/-- One user of each name: what is read is what was written. -/
theorem loadService_users_eq (kv : UserSort) (h : Written s tree)
    (hnodup : (s.users.map fun u => u.user.user).Nodup)
    (hsorted : (s.users.map fun u => u.user).Pairwise NameLe)
    (hrev : ∀ u ∈ s.users, u.revoke.isSome = decide (u.user.revoke.length ≠ 0)) :
    (loadService kv tree s.toConfig).users = s.users := by
  have heq : (readUsers kv s tree).map (fun u => u.user) = s.users.map fun u => u.user := by
    refine eq_of_perm_of_names (readUsers_perm kv h) ?_ (nameLe_of_sorted (kv.sorted _)) hsorted
    rw [List.map_map]
    exact hnodup
  have hread : readUsers kv s tree = s.users.map fun u => UserElem.new u.user := by
    calc readUsers kv s tree
        = (readUsers kv s tree).map fun u => UserElem.new u.user := by
          conv_lhs => rw [← List.map_id (readUsers kv s tree)]
          exact List.map_congr_left fun u hu => readUsers_new u hu
      _ = ((readUsers kv s tree).map fun u => u.user).map UserElem.new := by
          rw [List.map_map]
          rfl
      _ = s.users.map fun u => UserElem.new u.user := by
          rw [heq, List.map_map]
          rfl
  rw [loadService_users h, hread]
  have hsig := foldl_loadSig [] s.users hnodup
  have hrevoke := foldl_loadRevoke [] hrev hnodup
  rw [List.nil_append, List.nil_append] at hsig hrevoke
  show (s.users.filterMap fun u => u.revoke.map fun r => (u.user.user, r)).foldl loadRevoke
    ((s.users.map fun u => (u.user.user, u.sig)).foldl loadSig _) = _
  rw [hsig]
  exact hrevoke

theorem loadService_unsigned (h : Written s tree)
    (hdup : ¬ (s.users.map fun u => u.user.user).Nodup) :
    Unsigned (loadService kv tree s.toConfig).users := by
  have hread : Unsigned (readUsers kv s tree) := by
    refine unsigned_of_not_nodup (fun u hu => ?_) fun hnodup => hdup ?_
    · rw [readUsers_new u hu]
      rfl
    · have hperm := (readUsers_perm kv h).map fun u => u.user
      rw [List.map_map, List.map_map] at hperm
      exact hperm.nodup_iff.mp hnodup
  rw [loadService_users h]
  exact (hread.foldl (fun _ p hu => hu.loadSig p) _).foldl (fun _ p hu => hu.loadRevoke p) _

end Read

end ServiceBuf

namespace Service

variable (s : Service) {pwd : Str} {s' : ServiceBuf}

/-- `sign_users` succeeds with both keys of the service and signs with them. -/
theorem signUsers_cases {kv : UserSort} {fresh : UserBuf → Str × ℕ}
    (h : s.signUsers kv fresh pwd = some s') :
    ∃ key us, s.pub = hmacEncrypt (s.kdf pwd) 0 (.pk key) ∧
      s.pri = hmacEncrypt (s.kdf pwd) (aesCtrOff DSA_KEY_LEN) (.sk key) ∧
      ServiceBuf.signLoop (s.kdf pwd) pwd (DSA.genKey key) ServiceBuf.sigCtr
        (ServiceBuf.genKeys fresh pwd (kv.sort s.users)) = some us ∧
      s' = { s.toServiceBuf with users := us } := by
  unfold ServiceBuf.signUsers at h
  simp only [Option.bind_eq_bind, Option.bind_eq_some_iff] at h
  obtain ⟨pk, hpk, sk, hsk, us, hsign, heq⟩ := h
  have hsome : s.pri.isSome = true := by
    by_contra hnone
    rw [Option.not_isSome_iff_eq_none] at hnone
    rw [ServiceBuf.getPri, hnone] at hsk
    simp at hsk
  obtain ⟨key, rfl, hpub, hpri⟩ := s.keys.of_open hpk hsome
  rw [ServiceBuf.getPri, Nat.zero_add, hpri, hmacDecrypt_hmacEncrypt] at hsk
  obtain rfl := Option.some.inj hsk
  exact ⟨key, us, hpub, hpri, hsign, (Option.some.inj heq).symm⟩

/-- What `sign_users` leaves: the users in the order of their names, with signatures
that are checked. -/
theorem signUsers_spec {kv : UserSort} {fresh : UserBuf → Str × ℕ}
    (h : s.signUsers kv fresh pwd = some s') :
    s'.checkSignatures pwd = true ∧ (s'.users.map fun u => u.user).Pairwise ServiceBuf.NameLe ∧
      (s'.users.map fun u => u.user.user).Perm (s.users.map fun u => u.user.user) ∧
      ∀ u ∈ s'.users, u.revoke.isSome = decide (u.user.revoke.length ≠ 0) ∧
        u.user.service = s'.service := by
  obtain ⟨key, us, hpub, -, hsign, rfl⟩ := s.signUsers_cases h
  have hpk : s.getPub pwd = some (.pk key) := by
    rw [ServiceBuf.getPub, hpub, hmacDecrypt_hmacEncrypt]
  obtain ⟨hsame, hcheck⟩ := ServiceBuf.signLoop_spec hsign
  have huser : us.map (fun u => u.user) =
      (ServiceBuf.genKeys fresh pwd (kv.sort s.users)).map fun u => u.user := by
    have := congrArg (List.map Prod.fst) hsame
    rwa [List.map_map, List.map_map] at this
  have hname : us.map (fun u => u.user.user) = (kv.sort s.users).map fun u => u.user.user := by
    have := congrArg (List.map UserBuf.user) huser
    rw [List.map_map, List.map_map] at this
    exact this.trans (ServiceBuf.genKeys_name _ _ _)
  refine ⟨?_, ?_, ?_, ?_⟩
  · unfold ServiceBuf.checkSignatures
    rw [show ServiceBuf.getPub { s.toServiceBuf with users := us } pwd = some (.pk key) from hpk]
    exact hcheck
  · rw [ServiceBuf.pairwise_nameLe]
    show (us.map fun u => u.user.user).Pairwise _
    rw [hname, ← ServiceBuf.pairwise_nameLe]
    exact ServiceBuf.nameLe_of_sorted (kv.sorted _)
  · show (us.map fun u => u.user.user).Perm _
    rw [hname]
    exact (kv.perm _).map _
  · intro u hu
    have hmem : (u.user, u.revoke.isSome) ∈
        (ServiceBuf.genKeys fresh pwd (kv.sort s.users)).map
          fun u => (u.user, u.revoke.isSome) := by
      rw [← hsame]
      exact List.mem_map_of_mem hu
    obtain ⟨v, hv, heq⟩ := List.mem_map.mp hmem
    obtain ⟨w, hw, hrev, hlen, hsvc⟩ := ServiceBuf.mem_genKeys hv
    have hw := (kv.perm _).mem_iff.mp hw
    obtain ⟨huv, hrv⟩ := Prod.mk.inj heq
    rw [← huv, ← hrv, hrev, hlen, hsvc]
    exact ⟨s.revoked w hw, s.ofService w hw⟩

/-- **Signatures are read back** exactly when no two users have one name, and a new
password keeps them. -/
theorem signatures_kept_iff (kv : UserSort) (fresh : UserBuf → Str × ℕ) (pwd : Str) :
    (∀ s' tree, s.signUsers kv fresh pwd = some s' → s'.Written tree →
      ((ServiceBuf.loadService kv tree s'.toConfig).checkSignatures pwd = true ↔
        (s.users.map fun u => u.user.user).Nodup)) ∧
    ∀ oldPwd newPwd, s.checkSignatures oldPwd = true →
      ∃ s', s.changePass oldPwd newPwd = some s' ∧ s'.checkSignatures newPwd = true := by
  constructor
  · intro s' tree hsign hw
    obtain ⟨hcheck, hsorted, hperm, hrev⟩ := s.signUsers_spec hsign
    rw [← hperm.nodup_iff]
    constructor
    · intro hload
      by_contra hdup
      unfold ServiceBuf.checkSignatures at hload
      split at hload
      · rw [(ServiceBuf.loadService_unsigned hw hdup).not_checked] at hload
        cases hload
      · cases hload
    · intro hnodup
      have husers := ServiceBuf.loadService_users_eq kv hw hnodup hsorted
        fun u hu => (hrev u hu).1
      have hsame : ServiceBuf.loadService kv tree s'.toConfig = s' :=
        congrArg (ServiceBuf.mk s'.service s'.create s'.pri s'.pub) husers
      rw [hsame]
      exact hcheck
  · intro oldPwd newPwd hcheck
    unfold ServiceBuf.checkSignatures at hcheck
    cases hpk : s.getPub oldPwd with
    | none => simp [hpk] at hcheck
    | some pk =>
      rw [hpk] at hcheck
      obtain ⟨us, hus, hcheck'⟩ :=
        ServiceBuf.changeLoop_spec (s.kdf newPwd) newPwd s.userKeys hcheck
      obtain ⟨sk, hsk⟩ : ∃ sk, (if s.pri.isSome then s.getPri oldPwd else some .badSig) =
          some sk := by
        split
        · next hpri =>
            obtain ⟨key, -, hsk⟩ := s.keys.pri_of_pub hpk hpri
            refine ⟨.sk key, ?_⟩
            rw [ServiceBuf.getPri, Nat.zero_add]
            exact hsk
        · exact ⟨.badSig, rfl⟩
      refine ⟨ServiceBuf.putDsa { s.toServiceBuf with users := us } newPwd ⟨pk, sk⟩
        s.pri.isSome, ?_, ?_⟩
      · unfold ServiceBuf.changePass
        simp only [hpk, hus, Option.bind_eq_bind, Option.bind_some]
        by_cases hpri : s.pri.isSome = true
        · simp only [hpri, if_true] at hsk ⊢
          rw [hsk]
          rfl
        · simp only [hpri, Bool.false_eq_true, if_false] at hsk ⊢
          obtain rfl := Option.some.inj hsk
          rfl
      · unfold ServiceBuf.checkSignatures
        rw [ServiceBuf.getPub_putDsa]
        obtain ⟨husers, hkdf⟩ := ServiceBuf.putDsa_same { s.toServiceBuf with users := us }
          newPwd ⟨pk, sk⟩ s.pri.isSome
        dsimp only
        rw [husers, hkdf]
        exact hcheck'

end Service

/-! ### A sort -/

theorem cmpUserCreate_compare : cmpUserCreate =
    compareLex (compareOn UserBuf.user) (compareOn UserBuf.create) := by
  funext x y
  rw [cmpUserCreate, ServiceBuf.cmpBytes_compare, ServiceBuf.cmpBytes_compare]
  rfl

/-- Not after, by `cmp_user_create`. -/
def UserElem.Le (x y : UserElem) : Prop := (cmpUserCreate x.user y.user).isLE = true

instance : DecidableRel UserElem.Le := fun x y =>
  inferInstanceAs (Decidable ((cmpUserCreate x.user y.user).isLE = true))

instance : IsTrans UserElem UserElem.Le where
  trans := by
    intro x y z hxy hyz
    unfold UserElem.Le at *
    rw [cmpUserCreate_compare] at *
    exact Std.TransCmp.isLE_trans hxy hyz

instance : Std.Total UserElem.Le where
  total := by
    intro x y
    unfold UserElem.Le
    rw [cmpUserCreate_compare]
    cases h : compareLex (compareOn UserBuf.user) (compareOn UserBuf.create) x.user y.user with
    | lt => exact Or.inl rfl
    | eq => exact Or.inl rfl
    | gt =>
      right
      rw [Std.OrientedCmp.lt_of_gt h]
      rfl

/-- By insertion. -/
def UserSort.insertion : UserSort where
  sort := List.insertionSort UserElem.Le
  perm := List.perm_insertionSort _
  sorted := by
    intro l
    refine (List.pairwise_insertionSort UserElem.Le l).imp ?_
    intro x y hxy
    exact Ordering.isLE_iff_ne_gt.mp hxy

namespace Service

/-- A user with no keys yet, created at `create`. -/
def newUser (user create : Str) : UserElem := UserElem.new ⟨user, [1], create, [], [], none, none⟩

/-- A service with the key pair `0` and these users, none with keys. -/
def ofUsers (pwd : Str) (names : List (Str × Str)) : Service where
  toServiceBuf := ServiceBuf.putDsa
    ⟨[1], [2], none, none, names.map fun p => newUser p.1 p.2⟩ pwd (DSA.genKey 0) true
  keys := ⟨pwd, 0, Or.inr rfl, Or.inr rfl⟩
  userKeys := by
    intro u hu
    obtain ⟨p, -, rfl⟩ := List.mem_map.mp hu
    exact ⟨pwd, 0, Or.inl rfl, Or.inl rfl⟩
  ofService := by
    intro u hu
    obtain ⟨p, -, rfl⟩ := List.mem_map.mp hu
    rfl
  revoked := by
    intro u hu
    obtain ⟨p, -, rfl⟩ := List.mem_map.mp hu
    rfl

/-- Each user gets a key pair of its own. -/
def freshKeys (u : UserBuf) : Str × ℕ := (u.create, 1 + u.create.length)

theorem signatures_kept_iff_twoUsers :
    ∃ s', (ofUsers [7] [([98], [3]), ([97], [3])]).signUsers UserSort.insertion freshKeys [7] =
        some s' ∧
      (ServiceBuf.loadService UserSort.insertion s'.writeUsers s'.toConfig).checkSignatures [7] =
        true ∧
      ∃ s'', (ofUsers [7] []).changePass [7] [8] = some s'' ∧ s''.checkSignatures [8] = true := by
  have hkept := signatures_kept_iff (ofUsers [7] [([98], [3]), ([97], [3])])
    UserSort.insertion freshKeys [7]
  obtain ⟨s', hsign⟩ : ∃ s', (ofUsers [7] [([98], [3]), ([97], [3])]).signUsers
      UserSort.insertion freshKeys [7] = some s' := ⟨_, rfl⟩
  refine ⟨s', hsign, (hkept.1 s' _ hsign ?_).mpr (by decide), ?_⟩
  · refine ServiceBuf.written_writeUsers ?_
    intro u hu
    exact ((signUsers_spec _ hsign).2.2.2 u hu).2
  · exact (signatures_kept_iff (ofUsers [7] []) UserSort.insertion freshKeys [7]).2 _ _ rfl

/-- Two users of one name, created at different times. -/
theorem sameName_not_read_back :
    ¬ ∀ (s : Service) (kv : UserSort) (fresh : UserBuf → Str × ℕ) (pwd : Str) (s' : ServiceBuf),
      s.signUsers kv fresh pwd = some s' →
        (ServiceBuf.loadService kv s'.writeUsers s'.toConfig).checkSignatures pwd = true := by
  intro h
  have h := h (ofUsers [7] [([97], [3]), ([97], [4, 4])]) UserSort.insertion freshKeys [7] _ rfl
  exact absurd h (by decide)

end Service

end Raims
