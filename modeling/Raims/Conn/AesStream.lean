import Raims.Conn.AesConnection

/-!
# The stream between two encrypted connections

What an end has sent is the start of its header and of what the application wrote,
enciphered once; what the other end has read is the same in plain. This needs that
the header is sent when the key of the other end comes, or that nothing was saved
until then: what was saved is put before what is left of the header.
-/

namespace Raims

namespace StreamAES

variable {aes : AES128} {v k : ℕ} {s : StreamAES}

/-- At byte `k` of the keystream. -/
def At (aes : AES128) (v k : ℕ) (s : StreamAES) : Prop := s.aes = aes ∧ s.mode.At aes v k

theorem At.crypt (h : s.At aes v k) {buf : List UInt8} (hbuf : buf ≠ []) :
    ∃ s', s.crypt buf = some (s', Keystream.apply (aes.keystream v) k buf) ∧
      At aes v (k + buf.length) s' ∧ s'.off = s.off := by
  obtain ⟨rfl, hmode⟩ := h
  obtain ⟨m, hm, hat⟩ := hmode.crypt hbuf
  refine ⟨{ s with mode := m }, ?_, ⟨rfl, hat⟩, rfl⟩
  rw [StreamAES.crypt, hm]
  rfl

theorem at_initSecret (hmask : s.mode.mask.length = CounterModeAES.MASK_SIZE)
    (key : AES128 × (UInt64 × UInt64)) (off : ℕ) :
    (s.initSecret key off).At key.1 (AES128.ctrValue key.2) 0 :=
  ⟨rfl, CounterModeAES.at_start hmask key.2⟩

end StreamAES

namespace AESConnection

variable {κ : Type} {c : AESConnection κ}

/-! ## The queue -/

theorem flatten_dropIov (n : ℕ) (iov : List (List UInt8)) :
    (dropIov n iov).flatten = iov.flatten.drop n := by
  induction iov generalizing n with
  | nil => rw [dropIov, List.flatten_nil, List.drop_nil]
  | cons io ios ih =>
    rw [dropIov, List.flatten_cons]
    by_cases hle : io.length ≤ n
    · rw [if_pos hle, ih, List.drop_append, List.drop_eq_nil_of_le hle, List.nil_append]
    · rw [if_neg hle, List.flatten_cons, List.drop_append_of_le_length (Nat.le_of_not_le hle)]

/-- The stream `D`: what was sent of it, and the rest in the queue. -/
structure Sending (D sent : List UInt8) (c : AESConnection κ) : Prop where
  le : c.bytesSent ≤ D.length
  sent : sent = D.take c.bytesSent
  queue : c.iov.flatten = D.drop c.bytesSent

theorem Sending.evWrite {D sent : List UInt8} (h : Sending D sent c) (n : ℕ) :
    Sending D (sent ++ (c.evWrite n).2) (c.evWrite n).1 := by
  obtain ⟨hle, hsent, hqueue⟩ := h
  have hpending : c.wrPending = D.length - c.bytesSent := by
    rw [wrPending, hqueue, List.length_drop]
  refine ⟨?_, ?_, ?_⟩
  · show c.bytesSent + min n c.wrPending ≤ D.length
    omega
  · show sent ++ c.iov.flatten.take n = D.take (c.bytesSent + min n c.wrPending)
    rw [hsent, hqueue, List.take_add, hpending]
    congr 1
    rw [← List.length_drop, ← List.take_eq_take_min]
  · show (dropIov n c.iov).flatten = D.drop (c.bytesSent + min n c.wrPending)
    rw [flatten_dropIov, hqueue, ← List.drop_drop, hpending, ← List.length_drop]
    rcases Nat.le_total n (D.drop c.bytesSent).length with hn | hn
    · rw [Nat.min_eq_left hn]
    · rw [Nat.min_eq_right hn, List.drop_eq_nil_of_le hn, List.drop_length]

/-- `write` enciphers what is behind `encOff`, each byte once. -/
theorem encryptLoop_spec {aes : AES128} {v k : ℕ} {s : StreamAES} (h : s.At aes v k)
    (encOff : ℕ) (iov : List (List UInt8)) :
    ∃ s' iov', encryptLoop s encOff iov = some (s', iov') ∧
      iov'.flatten = iov.flatten.take encOff ++
        Keystream.apply (aes.keystream v) k (iov.flatten.drop encOff) ∧
      s'.off = s.off + (iov.flatten.length - encOff) ∧
      s'.At aes v (k + (iov.flatten.length - encOff)) := by
  induction iov generalizing s k encOff with
  | nil => exact ⟨s, [], rfl, by simp [Keystream.apply], by simp, by simpa using h⟩
  | cons io ios ih =>
    rw [encryptLoop, List.flatten_cons]
    by_cases hoff : encOff < io.length
    · have hne : io.drop encOff ≠ [] := by
        intro hnil
        exact absurd (List.drop_eq_nil_iff.mp hnil) (Nat.not_le_of_lt hoff)
      obtain ⟨s₁, hcrypt, hat₁, hoff₁⟩ := h.crypt hne
      obtain ⟨s₂, iov', hrest, hflat, hoff₂, hat₂⟩ :=
        ih (s := { s₁ with off := s₁.off + (io.length - encOff) }) hat₁ 0
      rw [List.take_zero, List.nil_append, List.drop_zero] at hflat
      rw [Nat.sub_zero] at hoff₂ hat₂
      rw [List.length_drop] at hat₂ hflat
      refine ⟨s₂, (io.take encOff ++ Keystream.apply (aes.keystream v) k (io.drop encOff)) :: iov',
        ?_, ?_, ?_, ?_⟩
      · rw [if_pos hoff, hcrypt]
        simp only [Option.bind_eq_bind, Option.bind_some, hrest]
        rfl
      · rw [List.flatten_cons, hflat, List.take_append_of_le_length (Nat.le_of_lt hoff),
          List.drop_append_of_le_length (Nat.le_of_lt hoff), Keystream.apply_append,
          List.length_drop, List.append_assoc]
      · rw [hoff₂]
        show s₁.off + (io.length - encOff) + ios.flatten.length = _
        rw [hoff₁, List.length_append]
        omega
      · have hlen : k + ((io ++ ios.flatten).length - encOff) =
            k + (io.length - encOff) + ios.flatten.length := by
          rw [List.length_append]
          omega
        rw [hlen]
        exact hat₂
    · have hle : io.length ≤ encOff := Nat.le_of_not_lt hoff
      obtain ⟨s₂, iov', hrest, hflat, hoff₂, hat₂⟩ := ih h (encOff - io.length)
      have hlen : (io ++ ios.flatten).length - encOff =
          ios.flatten.length - (encOff - io.length) := by
        rw [List.length_append]
        omega
      refine ⟨s₂, io :: iov', ?_, ?_, ?_, ?_⟩
      · rw [if_neg hoff, hrest]
        rfl
      · rw [List.flatten_cons, hflat, List.take_append, List.drop_append,
          List.take_of_length_le hle, List.drop_eq_nil_of_le hle, List.nil_append,
          List.append_assoc]
      · rw [hoff₂, hlen]
      · rw [hlen]
        exact hat₂

/-! ## The sending end -/

section Send

variable {E : AESEnds κ} {x : Side} {data sent : List UInt8}

theorem length_header (E : AESEnds κ) (x : Side) : (E.header x).length = KEY_EXCH_SIZE := by
  rw [AESEnds.header, List.length_append, List.length_append, Bytes.length_be, E.length_nonce,
    E.length_pub]
  rfl

/-- Before the key of the other end has come: the queue has what is left of the header,
and of the data what is not saved. -/
structure Exchanging (E : AESEnds κ) (x : Side) (data sent : List UInt8) (ex : ECDHExchange κ)
    (rest : List UInt8) (c : AESConnection κ) : Prop where
  status : c.status = .isOpen
  exch : c.exch = some ex
  ecdh : ex.ecdh = E.key x
  nonce : ex.sendNonce = E.nonce x
  le : c.bytesSent ≤ KEY_EXCH_SIZE
  sent : sent = (E.header x).take c.bytesSent
  queue : c.iov.flatten = (E.header x).drop c.bytesSent ++ rest
  saved : ex.save ++ rest = data
  mask : c.sendAes.mode.mask.length = CounterModeAES.MASK_SIZE

/-- With a key: the queue is enciphered up to `off`. -/
structure Keyed (E : AESEnds κ) (x : Side) (data sent : List UInt8) (c : AESConnection κ) :
    Prop where
  status : c.status = .isOpen
  exch : c.exch = none
  haveKey : c.haveKey = true
  le_off : KEY_EXCH_SIZE ≤ c.sendAes.off
  off_le : c.sendAes.off ≤ KEY_EXCH_SIZE + data.length
  sent_le : c.bytesSent ≤ c.sendAes.off
  sent : sent = (E.cipher x data).take c.bytesSent
  queue : c.iov.flatten = ((E.cipher x data).take c.sendAes.off).drop c.bytesSent ++
    (E.plain x data).drop c.sendAes.off
  aes : c.sendAes.At (E.streamKey x).1 (AES128.ctrValue (E.streamKey x).2)
    (c.sendAes.off - KEY_EXCH_SIZE)

def Sends (E : AESEnds κ) (x : Side) (data sent : List UInt8) (c : AESConnection κ) : Prop :=
  (∃ ex rest, Exchanging E x data sent ex rest c) ∨ Keyed E x data sent c

theorem cipher_append (d : List UInt8) : E.cipher x (data ++ d) =
    E.cipher x data ++ Keystream.apply (E.keystream x) data.length d := by
  rw [AESEnds.cipher, AESEnds.cipher, Keystream.apply_append, Nat.zero_add, List.append_assoc]

theorem length_cipher (E : AESEnds κ) (x : Side) (data : List UInt8) :
    (E.cipher x data).length = KEY_EXCH_SIZE + data.length := by
  rw [AESEnds.cipher, List.length_append, length_header, Keystream.length_apply]

theorem length_plain (E : AESEnds κ) (x : Side) (data : List UInt8) :
    (E.plain x data).length = KEY_EXCH_SIZE + data.length := by
  rw [AESEnds.plain, List.length_append, length_header]

/-- The cipher from `off` on. -/
theorem drop_cipher {off : ℕ} (h : KEY_EXCH_SIZE ≤ off) : (E.cipher x data).drop off =
    Keystream.apply (E.keystream x) (off - KEY_EXCH_SIZE) ((E.plain x data).drop off) := by
  have hle : (E.header x).length ≤ off := by
    rw [length_header]
    exact h
  rw [AESEnds.cipher, AESEnds.plain, List.drop_append, List.drop_append,
    List.drop_eq_nil_of_le hle, List.nil_append, List.nil_append, Keystream.drop_apply,
    length_header, Nat.zero_add]

theorem Exchanging.append {ex : ECDHExchange κ} {rest : List UInt8}
    (h : Exchanging E x data sent ex rest c) (d : List UInt8) :
    Exchanging E x (data ++ d) sent ex (rest ++ d) (c.append d) := by
  refine { h with queue := ?_, saved := ?_ }
  · show (c.iov ++ [d]).flatten = _
    rw [List.flatten_append, h.queue, List.flatten_singleton, List.append_assoc]
    rfl
  · rw [← List.append_assoc, h.saved]

theorem Keyed.append (h : Keyed E x data sent c) (d : List UInt8) :
    Keyed E x (data ++ d) sent (c.append d) := by
  have hoff : c.sendAes.off ≤ (E.cipher x data).length := by
    rw [length_cipher]
    exact h.off_le
  have hsent : c.bytesSent ≤ (E.cipher x data).length := le_trans h.sent_le hoff
  refine { h with off_le := ?_, sent := ?_, queue := ?_ }
  · show c.sendAes.off ≤ _
    have := h.off_le
    rw [List.length_append]
    omega
  · show sent = (E.cipher x (data ++ d)).take c.bytesSent
    rw [cipher_append, List.take_append_of_le_length hsent]
    exact h.sent
  · show (c.iov ++ [d]).flatten = ((E.cipher x (data ++ d)).take c.sendAes.off).drop c.bytesSent ++
      (E.plain x (data ++ d)).drop c.sendAes.off
    have hplain : E.plain x (data ++ d) = E.plain x data ++ d := (List.append_assoc _ _ _).symm
    rw [cipher_append, List.take_append_of_le_length hoff, hplain,
      List.drop_append_of_le_length (by rw [length_plain]; exact h.off_le), List.flatten_append,
      h.queue, List.flatten_singleton, List.append_assoc]

/-- All of the queue is enciphered, and some of it is sent. -/
theorem Keyed.write (h : Keyed E x data sent c) (refCount : ℕ → ℕ) (n : ℕ) :
    Keyed E x data (sent ++ (c.write refCount n).2) (c.write refCount n).1 := by
  have hlen := length_cipher E x data
  obtain ⟨s', iov', hloop, hflat, hoff, hat⟩ :=
    encryptLoop_spec h.aes (c.sendAes.off - c.bytesSent) c.iov
  have hdone : (((E.cipher x data).take c.sendAes.off).drop c.bytesSent).length =
      c.sendAes.off - c.bytesSent := by
    have := h.off_le
    rw [List.length_drop, List.length_take, hlen]
    omega
  have hrest : c.iov.flatten.drop (c.sendAes.off - c.bytesSent) =
      (E.plain x data).drop c.sendAes.off := by
    rw [h.queue]
    exact List.drop_left' hdone
  have hcount : c.iov.flatten.length - (c.sendAes.off - c.bytesSent) =
      KEY_EXCH_SIZE + data.length - c.sendAes.off := by
    rw [← List.length_drop, hrest, List.length_drop, length_plain]
  have hend : s'.off = KEY_EXCH_SIZE + data.length := by
    have := h.off_le
    rw [hoff, hcount]
    omega
  have hqueue : iov'.flatten = (E.cipher x data).drop c.bytesSent := by
    have hsplit : (E.cipher x data).drop c.bytesSent =
        ((E.cipher x data).take c.sendAes.off).drop c.bytesSent ++
          (E.cipher x data).drop c.sendAes.off := by
      conv_lhs => rw [← List.take_append_drop c.sendAes.off (E.cipher x data)]
      refine List.drop_append_of_le_length ?_
      have := h.off_le
      have := h.sent_le
      rw [List.length_take, hlen]
      omega
    rw [hflat, hrest, hsplit, drop_cipher h.le_off, h.queue, List.take_left' hdone]
    rfl
  set refs := (c.copyRefs refCount).refs
  have hwrite : c.write refCount n =
      evWrite { c with refs := refs, sendAes := s', iov := iov' } n := by
    unfold AESConnection.write
    rw [copyRefs_eq, h.exch]
    simp only [h.haveKey, if_true, hloop, refs]
  have hsending : Sending (E.cipher x data) sent
      { c with refs := refs, sendAes := s', iov := iov' } := by
    refine ⟨?_, h.sent, hqueue⟩
    have := h.off_le
    have := h.sent_le
    show c.bytesSent ≤ _
    rw [hlen]
    omega
  have hsent := hsending.evWrite n
  rw [hwrite]
  have hlast : s'.off - KEY_EXCH_SIZE =
      c.sendAes.off - KEY_EXCH_SIZE + (KEY_EXCH_SIZE + data.length - c.sendAes.off) := by
    have := h.le_off
    have := h.off_le
    omega
  refine ⟨h.status, h.exch, h.haveKey, ?_, ?_, ?_, hsent.sent, ?_, ?_⟩
  · show KEY_EXCH_SIZE ≤ s'.off
    omega
  · exact le_of_eq hend
  · show _ ≤ s'.off
    rw [hend, ← hlen]
    exact hsent.le
  · show _ = ((E.cipher x data).take s'.off).drop _ ++ (E.plain x data).drop s'.off
    rw [hend, List.take_of_length_le (le_of_eq hlen),
      List.drop_eq_nil_of_le (le_of_eq (length_plain E x data)), List.append_nil]
    exact hsent.queue
  · show s'.At _ _ (s'.off - KEY_EXCH_SIZE)
    rw [hlast, ← hcount]
    exact hat

/-- `save_write` with something behind the header. -/
theorem saveWrite_behind {ex : ECDHExchange κ} {n : ℕ} {save : List UInt8} (hne : c.iov ≠ [])
    (hbehind : KEY_EXCH_SIZE < c.bytesSent + c.iov.flatten.length)
    (hsave : (if c.bytesSent < KEY_EXCH_SIZE then
      c.iov.flatten.drop (KEY_EXCH_SIZE - c.bytesSent) else c.iov.flatten) = save) :
    c.saveWrite ex n =
      if c.iov.flatten.length = save.length then
        ({ c with exch := some { ex with save := ex.save ++ save }, iov := [] }, [])
      else
        evWrite { c with
          exch := some { ex with save := ex.save ++ save }
          iov := [c.iov.flatten.take (KEY_EXCH_SIZE - c.bytesSent)] } n := by
  have hconcat : c.concatIov = { c with iov := [c.iov.flatten] } := by
    rw [concatIov, if_neg hne]
  have hpending : AESConnection.wrPending { c with iov := [c.iov.flatten] } =
      c.iov.flatten.length := congrArg List.length (List.flatten_singleton ..)
  unfold saveWrite
  rw [hconcat]
  simp only [hpending, if_pos hbehind, hsave]

/-- `save_write` with the header only. -/
theorem saveWrite_header {ex : ECDHExchange κ} {n : ℕ}
    (hheader : ¬ KEY_EXCH_SIZE < c.bytesSent + c.iov.flatten.length) :
    c.saveWrite ex n = c.concatIov.evWrite n := by
  have hpending : c.concatIov.wrPending = c.iov.flatten.length := by
    show (if c.iov = [] then [] else [c.iov.flatten]).flatten.length = _
    split
    · next hnil => rw [hnil]
    · exact congrArg List.length (List.flatten_singleton ..)
  unfold saveWrite
  dsimp only
  rw [hpending]
  exact if_neg hheader

/-- The header is sent as far as the socket takes it, with all the data saved. -/
theorem Exchanging.evWrite {ex : ECDHExchange κ} {rest : List UInt8}
    (h : Exchanging E x data sent ex rest c) (ex' : ECDHExchange κ) (hecdh : ex'.ecdh = ex.ecdh)
    (hnonce : ex'.sendNonce = ex.sendNonce) (hsave : ex'.save = data) {iov : List (List UInt8)}
    (hiov : iov.flatten = (E.header x).drop c.bytesSent) (n : ℕ) :
    Exchanging E x data
      (sent ++ (AESConnection.evWrite { c with exch := some ex', iov := iov } n).2) ex' []
      (AESConnection.evWrite { c with exch := some ex', iov := iov } n).1 := by
  have hsending : Sending (E.header x) sent { c with exch := some ex', iov := iov } := by
    refine ⟨?_, h.sent, hiov⟩
    rw [length_header]
    exact h.le
  have hsent := hsending.evWrite n
  refine ⟨h.status, rfl, hecdh.trans h.ecdh, hnonce.trans h.nonce, ?_, hsent.sent, ?_, ?_, h.mask⟩
  · rw [← length_header E x]
    exact hsent.le
  · rw [List.append_nil]
    exact hsent.queue
  · rw [List.append_nil, hsave]

/-- What is behind the header is saved, and only the header is sent. -/
theorem Exchanging.write {ex : ECDHExchange κ} {rest : List UInt8}
    (h : Exchanging E x data sent ex rest c) (refCount : ℕ → ℕ) (n : ℕ) :
    ∃ ex' rest', Exchanging E x data (sent ++ (c.write refCount n).2) ex' rest'
      (c.write refCount n).1 := by
  have hle := h.le
  have hleft : ((E.header x).drop c.bytesSent).length = KEY_EXCH_SIZE - c.bytesSent := by
    rw [List.length_drop, length_header]
  have hpending : c.bytesSent + c.iov.flatten.length = KEY_EXCH_SIZE + rest.length := by
    rw [h.queue, List.length_append, hleft]
    omega
  have hwrite : c.write refCount n = c.saveWrite ex n := by
    unfold AESConnection.write
    rw [h.exch]
  rw [hwrite]
  by_cases hrest : rest = []
  · have hc : c.concatIov = { c with exch := some ex, iov := c.concatIov.iov } := by
      rw [← h.exch]
      rfl
    have hiov : c.concatIov.iov.flatten = (E.header x).drop c.bytesSent := by
      have hqueue := h.queue
      rw [hrest, List.append_nil] at hqueue
      rw [← hqueue]
      show (if c.iov = [] then [] else [c.iov.flatten]).flatten = _
      split
      · next hnil => rw [hnil]
      · exact List.flatten_singleton ..
    have hsaved : ex.save = data := by
      rw [← h.saved, hrest, List.append_nil]
    rw [saveWrite_header (by rw [hpending, hrest]; exact Nat.lt_irrefl _), hc]
    exact ⟨ex, [], h.evWrite ex rfl rfl hsaved hiov n⟩
  · have hpos : 0 < rest.length := List.length_pos_of_ne_nil hrest
    have hne : c.iov ≠ [] := by
      intro hnil
      have hqueue := h.queue
      rw [hnil] at hqueue
      exact hrest (List.append_eq_nil_iff.mp hqueue.symm).2
    have hsave : (if c.bytesSent < KEY_EXCH_SIZE then
        c.iov.flatten.drop (KEY_EXCH_SIZE - c.bytesSent) else c.iov.flatten) = rest := by
      rw [h.queue]
      split
      · exact List.drop_left' hleft
      · next hge =>
          rw [List.drop_eq_nil_of_le (by rw [length_header]; omega), List.nil_append]
    rw [saveWrite_behind hne (by omega) hsave]
    split
    · next hall =>
        -- the header was sent before
        have hsent : c.bytesSent = KEY_EXCH_SIZE := by omega
        refine ⟨_, [], h.status, rfl, h.ecdh, h.nonce, hle, ?_, ?_, ?_, h.mask⟩
        · rw [List.append_nil]
          exact h.sent
        · show [] = (E.header x).drop c.bytesSent ++ []
          rw [List.append_nil, List.drop_eq_nil_of_le (by rw [length_header, hsent])]
        · rw [List.append_nil]
          exact h.saved
    · refine ⟨_, [], h.evWrite { ex with save := ex.save ++ rest } rfl rfl h.saved ?_ n⟩
      rw [List.flatten_singleton, h.queue]
      exact List.take_left' hleft

/-- The key has come: what was saved may be put at the front of the queue if nothing is
left of the header there. -/
theorem Exchanging.keyed {ex : ECDHExchange κ} {rest : List UInt8}
    (h : Exchanging E x data sent ex rest c)
    (hok : ex.save = [] ∨ KEY_EXCH_SIZE ≤ c.bytesSent) {c' : AESConnection κ}
    (hstatus : c'.status = c.status) (hexch : c'.exch = none) (hkey : c'.haveKey = true)
    (hbytes : c'.bytesSent = c.bytesSent)
    (haes : c'.sendAes = c.sendAes.initSecret (E.streamKey x) KEY_EXCH_SIZE)
    (hiov : c'.iov = if ex.save.length ≠ 0 then ex.save :: c.iov else c.iov) :
    Keyed E x data sent c' := by
  have hhdr := length_header E x
  have htake : (E.cipher x data).take c.bytesSent = (E.header x).take c.bytesSent :=
    List.take_append_of_le_length (by rw [hhdr]; exact h.le)
  have hqueue : c'.iov.flatten = (E.header x).drop c.bytesSent ++ data := by
    rw [hiov, ← h.saved]
    rcases hok with hnone | hall
    · rw [hnone, if_neg (by simp), h.queue, List.nil_append]
    · have hnil : (E.header x).drop c.bytesSent = [] :=
        List.drop_eq_nil_of_le (by rw [hhdr]; exact hall)
      rw [hnil, List.nil_append]
      split
      · rw [List.flatten_cons, h.queue, hnil, List.nil_append]
      · next hzero =>
          rw [h.queue, hnil, List.length_eq_zero_iff.mp (not_not.mp hzero)]
  have hoff : c'.sendAes.off = KEY_EXCH_SIZE := by
    rw [haes]
    rfl
  have hhead : (E.cipher x data).take KEY_EXCH_SIZE = E.header x := List.take_left' hhdr
  have htail : (E.plain x data).drop KEY_EXCH_SIZE = data := List.drop_left' hhdr
  refine ⟨hstatus.trans h.status, hexch, hkey, ?_, ?_, ?_, ?_, ?_, ?_⟩
  · rw [hoff]
  · rw [hoff]
    exact Nat.le_add_right _ _
  · rw [hoff, hbytes]
    exact h.le
  · rw [hbytes, htake]
    exact h.sent
  · rw [hqueue, hoff, hbytes, hhead, htail]
  · rw [hoff, Nat.sub_self, haes]
    exact StreamAES.at_initSecret h.mask _ _

theorem Sends.append (h : Sends E x data sent c) (d : List UInt8) :
    Sends E x (data ++ d) sent (c.append d) := by
  rcases h with ⟨ex, rest, h⟩ | h
  · exact Or.inl ⟨ex, rest ++ d, h.append d⟩
  · exact Or.inr (h.append d)

theorem Sends.write (h : Sends E x data sent c) (refCount : ℕ → ℕ) (n : ℕ) :
    Sends E x data (sent ++ (c.write refCount n).2) (c.write refCount n).1 := by
  rcases h with ⟨ex, rest, h⟩ | h
  · exact Or.inl (h.write refCount n)
  · exact Or.inr (h.write refCount n)

theorem Sends.refs (h : Sends E x data sent c) (refs : List ℕ) :
    Sends E x data sent { c with refs := refs } := by
  rcases h with ⟨ex, rest, h⟩ | h
  · exact Or.inl ⟨ex, rest, h.status, h.exch, h.ecdh, h.nonce, h.le, h.sent, h.queue, h.saved,
      h.mask⟩
  · exact Or.inr ⟨h.status, h.exch, h.haveKey, h.le_off, h.off_le, h.sent_le, h.sent, h.queue,
      h.aes⟩

end Send

/-! ## The receiving end -/

section Recv

variable {E : AESEnds κ} {x : Side} {data sent past : List UInt8}

/-- Before all of the header has come. -/
structure Awaits (sent past : List UInt8) (c : AESConnection κ) : Prop where
  exch : c.exch.isSome = true
  past : past = []
  off : c.off = 0
  le : c.bytesRecv ≤ sent.length
  lt : c.bytesRecv < KEY_EXCH_SIZE
  recv : c.recv = sent.take c.bytesRecv
  mask : c.recvAes.mode.mask.length = CounterModeAES.MASK_SIZE

/-- With a key: what was read of the stream of `x` is deciphered. -/
structure Reads (E : AESEnds κ) (x : Side) (data sent past : List UInt8) (c : AESConnection κ) :
    Prop where
  exch : c.exch = none
  haveKey : c.haveKey = true
  le : c.bytesRecv ≤ sent.length
  ge : KEY_EXCH_SIZE ≤ c.bytesRecv
  got : past ++ c.recv = (E.plain x data).take c.bytesRecv
  off : c.recvAes.off = c.bytesRecv
  aes : c.recvAes.At (E.streamKey x).1 (AES128.ctrValue (E.streamKey x).2)
    (c.bytesRecv - KEY_EXCH_SIZE)

def Receives (E : AESEnds κ) (x : Side) (data sent past : List UInt8) (c : AESConnection κ) :
    Prop :=
  Awaits sent past c ∨ Reads E x data sent past c

/-- The fields that the receiving end is about. -/
theorem write_recv (c : AESConnection κ) (refCount : ℕ → ℕ) (n : ℕ) :
    (c.write refCount n).1.recv = c.recv ∧ (c.write refCount n).1.off = c.off ∧
      (c.write refCount n).1.bytesRecv = c.bytesRecv ∧
      (c.write refCount n).1.recvAes = c.recvAes ∧ (c.write refCount n).1.haveKey = c.haveKey ∧
      (c.write refCount n).1.exch.isSome = c.exch.isSome := by
  unfold AESConnection.write
  rw [copyRefs_eq]
  cases hexch : c.exch with
  | none =>
    dsimp only
    split
    · split <;> exact ⟨rfl, rfl, rfl, rfl, rfl, rfl⟩
    · exact ⟨rfl, rfl, rfl, rfl, rfl, congrArg Option.isSome hexch⟩
  | some ex =>
    dsimp only
    unfold saveWrite
    dsimp only
    split
    · split
      · exact ⟨rfl, rfl, rfl, rfl, rfl, congrArg Option.isSome hexch⟩
      · split <;> split <;> exact ⟨rfl, rfl, rfl, rfl, rfl, rfl⟩
    · exact ⟨rfl, rfl, rfl, rfl, rfl, congrArg Option.isSome hexch⟩

/-- Only what was read matters, and what the sender does later does not. -/
theorem Receives.mono (h : Receives E x data sent past c) (c' : AESConnection κ)
    (hrecv : c'.recv = c.recv) (hoff : c'.off = c.off) (hbytes : c'.bytesRecv = c.bytesRecv)
    (haes : c'.recvAes = c.recvAes) (hkey : c'.haveKey = c.haveKey)
    (hexch : c'.exch.isSome = c.exch.isSome) (hsent : sent.length ≤ KEY_EXCH_SIZE + data.length)
    (d out : List UInt8) : Receives E x (data ++ d) (sent ++ out) past c' := by
  rcases h with h | h
  · refine Or.inl ⟨hexch.trans h.exch, h.past, hoff.trans h.off, ?_, ?_, ?_, ?_⟩
    · rw [hbytes, List.length_append]
      exact le_trans h.le (Nat.le_add_right _ _)
    · rw [hbytes]
      exact h.lt
    · rw [hrecv, hbytes, List.take_append_of_le_length h.le]
      exact h.recv
    · rw [haes]
      exact h.mask
  · have hnone : c'.exch = none := by
      rw [← Option.not_isSome_iff_eq_none, hexch, h.exch]
      simp
    refine Or.inr ⟨hnone, hkey.trans h.haveKey, ?_, ?_, ?_, ?_, ?_⟩
    · rw [hbytes, List.length_append]
      exact le_trans h.le (Nat.le_add_right _ _)
    · rw [hbytes]
      exact h.ge
    · have hplain : E.plain x (data ++ d) = E.plain x data ++ d := (List.append_assoc _ _ _).symm
      rw [hrecv, hbytes, hplain, List.take_append_of_le_length]
      · exact h.got
      · rw [length_plain]
        exact le_trans h.le hsent
    · rw [haes, hbytes]
      exact h.off
    · rw [haes, hbytes]
      exact h.aes

/-- `read` deciphers what is new. -/
theorem decrypt_spec {aes : AES128} {v k : ℕ} (hat : c.recvAes.At aes v k)
    {pre bytes : List UInt8} (hrecv : c.recv = pre ++ bytes)
    (hlen : c.bytesRecv - c.recvAes.off = bytes.length) (hoff : c.recvAes.off ≤ c.bytesRecv) :
    ∃ s, c.decrypt = { c with
        recvAes := s, recv := pre ++ Keystream.apply (aes.keystream v) k bytes } ∧
      s.off = c.bytesRecv ∧ s.At aes v (k + bytes.length) := by
  unfold decrypt
  rw [hlen]
  dsimp only
  by_cases hnil : bytes = []
  · rw [hnil] at hlen hrecv ⊢
    rw [if_neg (by simp)]
    refine ⟨c.recvAes, ?_, ?_, hat⟩
    · rw [Keystream.apply, ← hrecv]
    · rw [List.length_nil] at hlen
      omega
  · have hpos : 0 < bytes.length := List.length_pos_of_ne_nil hnil
    have hmoff : c.recv.length - bytes.length = pre.length := by
      rw [hrecv, List.length_append]
      omega
    obtain ⟨s, hcrypt, hs, -⟩ := hat.crypt hnil
    rw [if_pos hpos, if_neg (by rw [hrecv, List.length_append]; omega), hmoff, hrecv,
      List.drop_left, List.take_left, hcrypt]
    exact ⟨{ s with off := c.bytesRecv }, rfl, rfl, hs⟩

/-- A piece of the cipher, deciphered. -/
theorem apply_cipher (E : AESEnds κ) (x : Side) (data : List UInt8) {k : ℕ} (n : ℕ)
    (hk : KEY_EXCH_SIZE ≤ k) :
    Keystream.apply (E.keystream x) (k - KEY_EXCH_SIZE) (((E.cipher x data).drop k).take n) =
      ((E.plain x data).drop k).take n := by
  rw [drop_cipher hk, Keystream.take_apply, Keystream.apply_apply]

/-- After `recv_key` has the key of the other end. -/
def withKey (E : AESEnds κ) (y : Side) (ex : ECDHExchange κ) (c : AESConnection κ) :
    AESConnection κ :=
  { c with
    recvAes := c.recvAes.initSecret (E.streamKey y.other) KEY_EXCH_SIZE
    sendAes := c.sendAes.initSecret (E.streamKey y) KEY_EXCH_SIZE
    off := KEY_EXCH_SIZE
    haveKey := true
    iov := if ex.save.length ≠ 0 then ex.save :: c.iov else c.iov
    exch := none }

/-- The header of the other end is accepted. -/
theorem recvKey_header {y : Side} {ex : ECDHExchange κ} {rest : List UInt8}
    (hrecv : c.recv = E.header y.other ++ rest) (hecdh : ex.ecdh = E.key y)
    (hnonce : ex.sendNonce = E.nonce y) :
    recvKey E.toKeyExchange c ex = (withKey E y ex c, true) := by
  have hlen : ¬ c.recv.length < KEY_EXCH_SIZE := by
    rw [hrecv, List.length_append, length_header]
    omega
  have hchk : c.recv.take CHECK_SIZE = Bytes.be CHECK_SIZE
      (check E.toKeyExchange (E.nonce y.other) (E.pub (E.key y.other))) := by
    rw [hrecv, AESEnds.header, List.append_assoc]
    exact List.take_left' (Bytes.length_be _ _)
  have hlt : check E.toKeyExchange (E.nonce y.other) (E.pub (E.key y.other)) < 2 ^ 32 :=
    E.crc_lt _ _
  have hrecvNonce : Bytes.bytesAt c.recv CHECK_SIZE NONCE_SIZE = E.nonce y.other := by
    refine Bytes.bytesAt_of_isPrefix (Bytes.be CHECK_SIZE (check E.toKeyExchange (E.nonce y.other)
      (E.pub (E.key y.other)))) ?_ (Bytes.length_be _ _) (E.length_nonce _)
    refine ⟨E.pub (E.key y.other) ++ rest, ?_⟩
    rw [hrecv, AESEnds.header]
    simp only [List.append_assoc]
  have hpub : Bytes.bytesAt c.recv (CHECK_SIZE + NONCE_SIZE) EC25519_KEY_LEN =
      E.pub (E.key y.other) := by
    refine Bytes.bytesAt_of_isPrefix (Bytes.be CHECK_SIZE (check E.toKeyExchange (E.nonce y.other)
      (E.pub (E.key y.other))) ++ E.nonce y.other) ?_ ?_ (E.length_pub _)
    · refine ⟨rest, ?_⟩
      rw [hrecv, AESEnds.header]
      simp only [List.append_assoc]
    · rw [List.length_append, Bytes.length_be, E.length_nonce]
  have hother : y.other.other = y := by cases y <;> rfl
  unfold recvKey withKey
  rw [if_neg hlen, hchk, Bytes.ofBe_be (lt_trans hlt (by decide)), hrecvNonce, hpub]
  dsimp only
  rw [if_neg, AESEnds.streamKey, AESEnds.streamKey, hother, hecdh, hnonce, E.shared]
  rintro (hhigh | hcrc)
  · exact hhigh (Nat.div_eq_of_lt hlt)
  · exact hcrc rfl

/-- What `x` sent, in either state. -/
theorem Sends.isPrefix (h : Sends E x data sent c) : sent <+: E.cipher x data := by
  rcases h with ⟨ex, rest, h⟩ | h
  · rw [h.sent]
    exact (List.take_prefix _ _).trans (List.prefix_append _ _)
  · rw [h.sent]
    exact List.take_prefix _ _

/-- What is read is the next piece of the cipher. -/
theorem take_wire (hsent : sent <+: E.cipher x data) (br n : ℕ) :
    (sent.drop br).take n = ((E.cipher x data).drop br).take ((sent.drop br).take n).length := by
  refine List.prefix_iff_eq_take.mp ?_
  exact (List.take_prefix n _).trans (hsent.drop br)

theorem Reads.read (h : Reads E x data sent past c) (hsent : sent <+: E.cipher x data) (n : ℕ) :
    ∃ s plain, c.read E.toKeyExchange ((sent.drop c.bytesRecv).take n) =
        { c with
          recvAes := s, recv := c.recv ++ plain
          bytesRecv := c.bytesRecv + ((sent.drop c.bytesRecv).take n).length } ∧
      Reads E x data sent past (c.read E.toKeyExchange ((sent.drop c.bytesRecv).take n)) := by
  have hpiece := take_wire hsent c.bytesRecv n
  have hle : ((sent.drop c.bytesRecv).take n).length ≤ sent.length - c.bytesRecv := by
    rw [List.length_take, List.length_drop]
    omega
  generalize (sent.drop c.bytesRecv).take n = bytes at hpiece hle
  have hread : c.read E.toKeyExchange bytes = (c.evRead bytes).decrypt := by
    unfold AESConnection.read
    simp only [evRead, h.exch, h.haveKey, if_true]
  obtain ⟨s, hdecrypt, hoff, hat⟩ := decrypt_spec (c := c.evRead bytes) h.aes rfl
    (show c.bytesRecv + bytes.length - c.recvAes.off = bytes.length by rw [h.off]; omega)
    (show c.recvAes.off ≤ c.bytesRecv + bytes.length by rw [h.off]; omega)
  have hplain := apply_cipher E x data bytes.length h.ge
  rw [← hpiece] at hplain
  rw [hread, hdecrypt]
  refine ⟨s, _, rfl, h.exch, h.haveKey, ?_, ?_, ?_, hoff, ?_⟩
  · show c.bytesRecv + bytes.length ≤ sent.length
    have := h.le
    omega
  · exact le_trans h.ge (Nat.le_add_right _ _)
  · show past ++ (c.recv ++ Keystream.apply (E.keystream x) (c.bytesRecv - KEY_EXCH_SIZE) bytes) =
      (E.plain x data).take (c.bytesRecv + bytes.length)
    rw [hplain, ← List.append_assoc, h.got, List.take_add]
  · show s.At _ _ (c.bytesRecv + bytes.length - KEY_EXCH_SIZE)
    rw [Nat.sub_add_comm h.ge]
    exact hat

theorem read_exch {K : KeyExchange κ} {ex : ECDHExchange κ} (h : c.exch = some ex)
    (bytes : List UInt8) : c.read K bytes =
      if (recvKey K (c.evRead bytes) ex).2 then (recvKey K (c.evRead bytes) ex).1.decrypt
      else (recvKey K (c.evRead bytes) ex).1 := by
  have h' : (c.evRead bytes).exch = some ex := h
  unfold AESConnection.read
  simp only [h']

/-- The rest of the header, and perhaps more, has come. -/
theorem Awaits.read {y : Side} {dataY sentY rest : List UInt8} {ex : ECDHExchange κ}
    (h : Awaits sent past c) (hs : Exchanging E y dataY sentY ex rest c)
    (hsent : sent <+: E.cipher y.other data) (n : ℕ)
    (hok : KEY_EXCH_SIZE ≤ c.recv.length + ((sent.drop c.bytesRecv).take n).length →
      ex.save = [] ∨ KEY_EXCH_SIZE ≤ c.bytesSent) :
    Receives E y.other data sent past
        (c.read E.toKeyExchange ((sent.drop c.bytesRecv).take n)) ∧
      Sends E y dataY sentY (c.read E.toKeyExchange ((sent.drop c.bytesRecv).take n)) := by
  have hrecv : c.recv ++ (sent.drop c.bytesRecv).take n =
      sent.take (c.bytesRecv + ((sent.drop c.bytesRecv).take n).length) := by
    rw [List.take_add, ← h.recv]
    congr 1
    exact List.prefix_iff_eq_take.mp (List.take_prefix n _)
  have hle : ((sent.drop c.bytesRecv).take n).length ≤ sent.length - c.bytesRecv := by
    rw [List.length_take, List.length_drop]
    omega
  have hrecvlen : c.recv.length = c.bytesRecv := by
    rw [h.recv, List.length_take, Nat.min_eq_left h.le]
  have hle' := h.le
  generalize (sent.drop c.bytesRecv).take n = bytes at *
  rw [read_exch hs.exch]
  by_cases hshort : c.bytesRecv + bytes.length < KEY_EXCH_SIZE
  · -- still too short
    have hlen : (c.evRead bytes).recv.length < KEY_EXCH_SIZE := by
      show (c.recv ++ bytes).length < _
      rw [List.length_append, hrecvlen]
      exact hshort
    have hwait : recvKey E.toKeyExchange (c.evRead bytes) ex = (c.evRead bytes, false) := by
      unfold recvKey
      exact if_pos hlen
    rw [hwait]
    refine ⟨Or.inl ⟨h.exch, h.past, h.off, ?_, hshort, hrecv, h.mask⟩, Or.inl ⟨ex, rest, ?_⟩⟩
    · show c.bytesRecv + bytes.length ≤ sent.length
      omega
    · exact ⟨hs.status, hs.exch, hs.ecdh, hs.nonce, hs.le, hs.sent, hs.queue, hs.saved, hs.mask⟩
  · have hge : KEY_EXCH_SIZE ≤ c.bytesRecv + bytes.length := Nat.le_of_not_lt hshort
    have hhdr := length_header E y.other
    -- the header and what is enciphered behind it
    have hcipher : (c.evRead bytes).recv = E.header y.other ++
        ((E.cipher y.other data).drop KEY_EXCH_SIZE).take
          (c.bytesRecv + bytes.length - KEY_EXCH_SIZE) := by
      have htake : sent.take (c.bytesRecv + bytes.length) =
          (E.cipher y.other data).take (c.bytesRecv + bytes.length) := by
        obtain ⟨more, hmore⟩ := hsent
        rw [← hmore, List.take_append_of_le_length (by omega)]
      show c.recv ++ bytes = _
      rw [hrecv, htake]
      conv_lhs => rw [← Nat.add_sub_of_le hge, List.take_add]
      congr 1
      exact List.take_left' hhdr
    rw [recvKey_header hcipher hs.ecdh hs.nonce]
    simp only [if_true]
    have hat := StreamAES.at_initSecret (s := c.recvAes) h.mask (E.streamKey y.other) KEY_EXCH_SIZE
    have hnew : (((E.cipher y.other data).drop KEY_EXCH_SIZE).take
        (c.bytesRecv + bytes.length - KEY_EXCH_SIZE)).length =
          c.bytesRecv + bytes.length - KEY_EXCH_SIZE := by
      have := hsent.length_le
      rw [List.length_take, List.length_drop]
      omega
    obtain ⟨s, hdecrypt, hoff, hat'⟩ := decrypt_spec (c := withKey E y ex (c.evRead bytes))
      hat hcipher hnew.symm hge
    have hplain := apply_cipher E y.other data (c.bytesRecv + bytes.length - KEY_EXCH_SIZE)
      (le_refl KEY_EXCH_SIZE)
    rw [Nat.sub_self] at hplain
    rw [hdecrypt]
    refine ⟨Or.inr ⟨rfl, rfl, ?_, hge, ?_, hoff, ?_⟩, Or.inr ?_⟩
    · show c.bytesRecv + bytes.length ≤ sent.length
      omega
    · show past ++ (E.header y.other ++ Keystream.apply (E.keystream y.other) 0 _) =
        (E.plain y.other data).take (c.bytesRecv + bytes.length)
      rw [hplain, h.past, List.nil_append]
      conv_rhs => rw [← Nat.add_sub_of_le hge, List.take_add]
      congr 1
      exact (List.take_left' hhdr).symm
    · rw [hnew, Nat.zero_add] at hat'
      exact hat'
    · refine hs.keyed (hok ?_) rfl rfl rfl rfl rfl rfl
      rw [hrecvlen]
      exact hge

end Recv

end AESConnection

/-! ## Both ends -/

theorem Side.other_other (x : Side) : x.other.other = x := by cases x <;> rfl

theorem Side.other_ne (x : Side) : x.other ≠ x := by cases x <;> decide

theorem Side.eq_other {x y : Side} (h : x ≠ y) : x = y.other := by
  revert h
  cases x <;> cases y <;> decide

namespace AESLink

open AESConnection

variable {κ : Type} {E : AESEnds κ} {s : AESLink κ}

/-- When the key of the other end comes, nothing is saved or the header is sent. -/
def KeyOk (s : AESLink κ) : Act → Prop
  | .read x n => ∀ ex, (s.conn x).exch = some ex →
      KEY_EXCH_SIZE ≤ (s.conn x).recv.length + ((s.wire x).take n).length →
        ex.save = [] ∨ KEY_EXCH_SIZE ≤ (s.conn x).bytesSent
  | _ => True

structure Inv (E : AESEnds κ) (s : AESLink κ) : Prop where
  sends : ∀ x, Sends E x (s.wrote x) (s.sent x) (s.conn x)
  receives : ∀ x, Receives E x.other (s.wrote x.other) (s.sent x.other) (s.past x) (s.conn x)

theorem Inv.start (E : AESEnds κ) : Inv E E.start := by
  constructor
  · intro x
    refine Or.inl ⟨⟨E.key x, E.nonce x, []⟩, [], rfl, rfl, rfl, rfl, Nat.zero_le _, rfl, ?_, rfl,
      E.length_mask x⟩
    show ([] ++ [_] ++ [_] : List (List UInt8)).flatten = (E.header x).drop 0 ++ []
    simp only [List.nil_append, List.cons_append, List.flatten_cons, List.flatten_nil,
      List.append_nil, List.drop_zero]
    rfl
  · intro x
    have hpos : 0 < KEY_EXCH_SIZE := by decide
    exact Or.inl ⟨rfl, rfl, rfl, Nat.zero_le _, hpos, rfl, E.length_mask x⟩

theorem Inv.sent_length (h : Inv E s) (x : Side) :
    (s.sent x).length ≤ KEY_EXCH_SIZE + (s.wrote x).length := by
  rw [← length_cipher E x]
  exact (h.sends x).isPrefix.length_le

theorem Inv.append (h : Inv E s) (y : Side) (d : List UInt8) :
    Inv E (s.act E.toKeyExchange (.append y d)) := by
  constructor
  · intro x
    by_cases hx : x = y
    · subst hx
      simp only [act, Function.update_self]
      exact (h.sends x).append d
    · simp only [act, Function.update_of_ne hx]
      exact h.sends x
  · intro x
    by_cases hx : x = y
    · subst hx
      simp only [act, Function.update_self, Function.update_of_ne x.other_ne]
      have hr := (h.receives x).mono ((s.conn x).append d) rfl rfl rfl rfl rfl rfl
        (h.sent_length x.other) [] []
      rwa [List.append_nil, List.append_nil] at hr
    · obtain rfl := Side.eq_other hx
      simp only [act, Function.update_of_ne hx, Side.other_other, Function.update_self]
      have hr := (h.receives y.other).mono (s.conn y.other) rfl rfl rfl rfl rfl rfl
        (h.sent_length _) d []
      rwa [List.append_nil, Side.other_other] at hr

/-- The buffers are counted apart from what is in them. -/
theorem Inv.refs (h : Inv E s) (y : Side) (refs : List ℕ) :
    Inv E { s with conn := Function.update s.conn y { s.conn y with refs := refs } } := by
  constructor
  · intro x
    by_cases hx : x = y
    · subst hx
      simp only [Function.update_self]
      exact (h.sends x).refs refs
    · simp only [Function.update_of_ne hx]
      exact h.sends x
  · intro x
    by_cases hx : x = y
    · subst hx
      simp only [Function.update_self]
      have hr := (h.receives x).mono { s.conn x with refs := refs } rfl rfl rfl rfl rfl rfl
        (h.sent_length x.other) [] []
      rwa [List.append_nil, List.append_nil] at hr
    · simp only [Function.update_of_ne hx]
      exact h.receives x

theorem Inv.appendRef (h : Inv E s) (y : Side) (ref : ℕ) (d : List UInt8) :
    Inv E (s.act E.toKeyExchange (.appendRef y ref d)) := by
  have hrefs := (h.append y d).refs y ((s.conn y).refs ++ [ref])
  simp only [act, Function.update_self, Function.update_idem] at hrefs
  exact hrefs

theorem Inv.write (h : Inv E s) (y : Side) (refCount : ℕ → ℕ) (n : ℕ) :
    Inv E (s.act E.toKeyExchange (.write y refCount n)) := by
  constructor
  · intro x
    by_cases hx : x = y
    · subst hx
      simp only [act, Function.update_self]
      exact (h.sends x).write refCount n
    · simp only [act, Function.update_of_ne hx]
      exact h.sends x
  · intro x
    by_cases hx : x = y
    · subst hx
      simp only [act, Function.update_self, Function.update_of_ne x.other_ne]
      obtain ⟨hrecv, hoff, hbytes, haes, hkey, hexch⟩ := write_recv (s.conn x) refCount n
      have hr := (h.receives x).mono _ hrecv hoff hbytes haes hkey hexch
        (h.sent_length x.other) [] []
      rwa [List.append_nil, List.append_nil] at hr
    · obtain rfl := Side.eq_other hx
      simp only [act, Function.update_of_ne hx, Side.other_other, Function.update_self]
      have hr := (h.receives y.other).mono (s.conn y.other) rfl rfl rfl rfl rfl rfl
        (h.sent_length _) [] ((s.conn y).write refCount n).2
      rwa [List.append_nil, Side.other_other] at hr

theorem Inv.read (h : Inv E s) {y : Side} {n : ℕ} (hok : KeyOk s (.read y n)) :
    Inv E (s.act E.toKeyExchange (.read y n)) := by
  have hsent := (h.sends y.other).isPrefix
  have hboth : Receives E y.other (s.wrote y.other) (s.sent y.other) (s.past y)
        ((s.conn y).read E.toKeyExchange ((s.wire y).take n)) ∧
      Sends E y (s.wrote y) (s.sent y)
        ((s.conn y).read E.toKeyExchange ((s.wire y).take n)) := by
    rcases h.receives y with hr | hr
    · rcases h.sends y with ⟨ex, rest, hs⟩ | hs
      · exact hr.read hs hsent n fun hlen => hok ex hs.exch hlen
      · have := hr.exch
        rw [hs.exch] at this
        exact absurd this (by simp)
    · rcases h.sends y with ⟨ex, rest, hs⟩ | hs
      · have := hs.exch
        rw [hr.exch] at this
        exact absurd this (by simp)
      · obtain ⟨aes, plain, heq, hr'⟩ := hr.read hsent n
        refine ⟨Or.inr hr', Or.inr ?_⟩
        show Keyed E y _ _ ((s.conn y).read E.toKeyExchange
          (((s.sent y.other).drop (s.conn y).bytesRecv).take n))
        rw [heq]
        exact ⟨hs.status, hs.exch, hs.haveKey, hs.le_off, hs.off_le, hs.sent_le, hs.sent, hs.queue,
          hs.aes⟩
  constructor
  · intro x
    by_cases hx : x = y
    · subst hx
      simp only [act, Function.update_self]
      exact hboth.2
    · simp only [act, Function.update_of_ne hx]
      exact h.sends x
  · intro x
    by_cases hx : x = y
    · subst hx
      simp only [act, Function.update_self]
      exact hboth.1
    · simp only [act, Function.update_of_ne hx]
      exact h.receives x

/-- A step that only moves what was read. -/
theorem Inv.move (h : Inv E s) {y : Side} {recv past : List UInt8} (off : ℕ)
    (hsame : past ++ recv = s.past y ++ (s.conn y).recv)
    (hwait : (s.conn y).exch.isSome = true →
      recv = (s.conn y).recv ∧ off = (s.conn y).off ∧ past = s.past y) :
    Inv E { s with
      conn := Function.update s.conn y { s.conn y with recv := recv, off := off }
      past := Function.update s.past y past } := by
  constructor
  · intro x
    by_cases hx : x = y
    · subst hx
      simp only [Function.update_self]
      rcases h.sends x with ⟨ex, rest, hs⟩ | hs
      · exact Or.inl ⟨ex, rest, hs.status, hs.exch, hs.ecdh, hs.nonce, hs.le, hs.sent, hs.queue,
          hs.saved, hs.mask⟩
      · exact Or.inr ⟨hs.status, hs.exch, hs.haveKey, hs.le_off, hs.off_le, hs.sent_le, hs.sent,
          hs.queue, hs.aes⟩
    · simp only [Function.update_of_ne hx]
      exact h.sends x
  · intro x
    by_cases hx : x = y
    · subst hx
      simp only [Function.update_self]
      rcases h.receives x with hr | hr
      · obtain ⟨rfl, rfl, rfl⟩ := hwait hr.exch
        exact Or.inl hr
      · refine Or.inr ⟨hr.exch, hr.haveKey, hr.le, hr.ge, ?_, hr.off, hr.aes⟩
        show past ++ recv = _
        rw [hsame]
        exact hr.got
    · simp only [Function.update_of_ne hx]
      exact h.receives x

theorem Inv.process (h : Inv E s) (y : Side) (n : ℕ) :
    Inv E (s.act E.toKeyExchange (.process y n)) := by
  show Inv E { s with conn := Function.update s.conn y ((s.conn y).process n) }
  cases hexch : (s.conn y).exch with
  | some ex =>
    have hproc : (s.conn y).process n = s.conn y := by
      unfold AESConnection.process
      rw [hexch]
    rw [hproc, Function.update_eq_self]
    exact h
  | none =>
    have hproc : (s.conn y).process n =
        { s.conn y with off := min ((s.conn y).off + n) (s.conn y).recv.length } := by
      unfold AESConnection.process
      split
      · next ex hsome =>
          rw [hexch] at hsome
          cases hsome
      · rfl
    have hmove := h.move (min ((s.conn y).off + n) (s.conn y).recv.length)
      (rfl : s.past y ++ (s.conn y).recv = _) (by rw [hexch]; simp)
    rw [Function.update_eq_self] at hmove
    rw [hproc]
    exact hmove

theorem Inv.shift (h : Inv E s) (y : Side) : Inv E (s.act E.toKeyExchange (.shift y)) := by
  refine h.move 0 ?_ ?_
  · rw [List.append_assoc, List.take_append_drop]
  · intro hsome
    rcases h.receives y with hr | hr
    · rw [hr.off, List.take_zero, List.append_nil]
      exact ⟨rfl, rfl, rfl⟩
    · rw [hr.exch] at hsome
      exact absurd hsome (by simp)

theorem Inv.step (h : Inv E s) {e : Act} (hok : KeyOk s e) : Inv E (s.step E.toKeyExchange e) := by
  unfold AESLink.step
  split
  · cases e with
    | append y d => exact h.append y d
    | appendRef y ref d => exact h.appendRef y ref d
    | release y keep => exact h.refs y _
    | write y refCount n => exact h.write y refCount n
    | read y n => exact h.read hok
    | process y n => exact h.process y n
    | shift y => exact h.shift y
  · exact h

/-! ### The stream -/

/-- What is not in the queue yet. -/
def saved (s : AESLink κ) (x : Side) : List UInt8 :=
  match (s.conn x).exch with
  | some ex => ex.save
  | none => []

/-- The stream from `x`: what is sent is a part of the header and of what the application
wrote, enciphered once; no byte is lost; and what the other end has is the same part. -/
structure Exact (E : AESEnds κ) (s : AESLink κ) (x : Side) : Prop where
  status : (s.conn x).status = .isOpen
  sent : s.sent x = (E.cipher x (s.wrote x)).take (s.conn x).bytesSent
  counted : (s.conn x).bytesSent + (s.saved x).length + (s.conn x).iov.flatten.length =
    KEY_EXCH_SIZE + (s.wrote x).length
  received : (s.conn x.other).bytesRecv ≤ (s.conn x).bytesSent
  got : s.past x.other ++ (s.conn x.other).recv =
    (E.plain x (s.wrote x)).take (s.conn x.other).bytesRecv

theorem Inv.exact (h : Inv E s) (x : Side) : Exact E s x := by
  have hsent : s.sent x = (E.cipher x (s.wrote x)).take (s.conn x).bytesSent ∧
      (s.conn x).status = .isOpen := by
    rcases h.sends x with ⟨ex, rest, hs⟩ | hs
    · refine ⟨?_, hs.status⟩
      rw [AESEnds.cipher, List.take_append_of_le_length (by rw [length_header]; exact hs.le)]
      exact hs.sent
    · exact ⟨hs.sent, hs.status⟩
  have hcount : (s.conn x).bytesSent + (s.saved x).length + (s.conn x).iov.flatten.length =
      KEY_EXCH_SIZE + (s.wrote x).length := by
    unfold saved
    rcases h.sends x with ⟨ex, rest, hs⟩ | hs
    · have := hs.le
      rw [hs.exch, hs.queue, ← hs.saved, List.length_append, List.length_append, List.length_drop,
        length_header]
      show _ + ex.save.length + _ = _
      omega
    · have := hs.off_le
      have := hs.sent_le
      rw [hs.exch, hs.queue, List.length_append, List.length_drop, List.length_drop,
        List.length_take, length_cipher, length_plain, List.length_nil]
      omega
  have hr := h.receives x.other
  rw [Side.other_other] at hr
  have hle : (s.conn x.other).bytesRecv ≤ (s.sent x).length := by
    rcases hr with hr | hr
    · exact hr.le
    · exact hr.le
  refine ⟨hsent.2, hsent.1, hcount, ?_, ?_⟩
  · have hlen := congrArg List.length hsent.1
    rw [List.length_take] at hlen
    omega
  · rcases hr with hr | hr
    · -- only bytes of the header, which is not enciphered
      have htake : (s.sent x).take (s.conn x.other).bytesRecv =
          (E.header x).take (s.conn x.other).bytesRecv := by
        obtain ⟨more, hmore⟩ := (h.sends x).isPrefix
        have hcipher := congrArg (List.take (s.conn x.other).bytesRecv) hmore
        rw [List.take_append_of_le_length hr.le, AESEnds.cipher, List.take_append_of_le_length
          (by rw [length_header]; exact Nat.le_of_lt hr.lt)] at hcipher
        exact hcipher
      rw [hr.past, hr.recv, htake, List.nil_append, AESEnds.plain, List.take_append_of_le_length
        (by rw [length_header]; exact Nat.le_of_lt hr.lt)]
    · exact hr.got

/-- When nothing is left to send or on the wire, the other end has everything. -/
theorem Exact.drained {x : Side} (h : Exact E s x) (hsaved : s.saved x = [])
    (hiov : (s.conn x).iov.flatten = [])
    (hwire : (s.conn x.other).bytesRecv = (s.conn x).bytesSent) :
    s.past x.other ++ (s.conn x.other).recv = E.header x ++ s.wrote x := by
  have hcount := h.counted
  rw [hsaved, hiov] at hcount
  rw [h.got, hwire]
  refine List.take_of_length_le ?_
  rw [length_plain]
  exact le_of_eq hcount.symm

/-- **Each end deciphers the header of the other and what was written there**, in every
run in which the header of an end is sent, or nothing is saved, when it gets the key. -/
theorem stream_exact (E : AESEnds κ) {acts : List Act}
    (h : Run.AllOk (AESLink.step E.toKeyExchange) KeyOk E.start acts) (x : Side) :
    Exact E (acts.foldl (AESLink.step E.toKeyExchange) E.start) x := by
  have hstart : Run.Reach (AESLink.step E.toKeyExchange) KeyOk E.start E.start := .start
  have hreach := hstart.foldl h
  have hinv : Inv E (acts.foldl (AESLink.step E.toKeyExchange) E.start) :=
    hreach.invariant (Inv.start E) fun s e hs hok => hs.step hok
  exact hinv.exact x

/-- A key exchange in which every key is zero. -/
def zeroEnds : AESEnds ℕ where
  pub _ := List.replicate 32 0
  length_pub _ := List.length_replicate
  sharedSecret _ _ := []
  shared _ _ := rfl
  crc _ _ := 0
  crc_lt _ _ := by decide
  psk := []
  secretKey _ _ := (CounterModeAES.addRoundKey, (0, 0))
  key _ := 0
  nonce _ := List.replicate 16 0
  length_nonce _ := List.length_replicate
  aes _ := ⟨CounterModeAES.addRoundKey, ⟨(0, 0), List.replicate 256 0, 0⟩, 0⟩
  length_mask _ := List.length_replicate

/-- The application writes before the key comes, and both headers are sent in time; then a buffer
that is shared is sent in two parts. -/
def fullHeader : List Act :=
  [.append .a [1, 2], .write .a (fun _ => 1) 100, .write .b (fun _ => 1) 100, .read .a 100,
    .read .b 100, .appendRef .a 7 [3, 4, 5], .write .a (fun _ => 2) 4, .append .a [6],
    .write .a (fun _ => 2) 100, .release .a (fun _ => false), .read .b 3, .process .b 57,
    .shift .b, .read .b 100]

theorem stream_exact_fullHeader :
    Run.AllOk (step zeroEnds.toKeyExchange) KeyOk zeroEnds.start fullHeader ∧
      (fullHeader.foldl (step zeroEnds.toKeyExchange) zeroEnds.start).past .b ++
        ((fullHeader.foldl (step zeroEnds.toKeyExchange) zeroEnds.start).conn .b).recv =
          zeroEnds.header .a ++ [1, 2, 3, 4, 5, 6] := by
  have hok : Run.AllOk (step zeroEnds.toKeyExchange) KeyOk zeroEnds.start fullHeader := by
    refine ⟨trivial, trivial, trivial, ?_, ?_, trivial, trivial, trivial, trivial, trivial, ?_,
      trivial, trivial, ?_, trivial⟩
    all_goals
      intro ex _ _
      exact Or.inr (by decide +kernel)
  exact ⟨hok, (stream_exact zeroEnds hok .a).drained rfl (by decide +kernel) (by decide +kernel)⟩

/-- The socket takes nothing of the header until the key of the other end comes. -/
def blockedHeader : List Act :=
  [.append .a [1], .write .a (fun _ => 1) 0, .write .b (fun _ => 1) 100, .read .a 100,
    .write .a (fun _ => 1) 100]

theorem blocked_not_exact :
    ¬ ∀ acts : List Act, ∀ x : Side,
      Exact zeroEnds (acts.foldl (step zeroEnds.toKeyExchange) zeroEnds.start) x := by
  intro h
  have hsent := (h blockedHeader .a).sent
  exact absurd (congrArg (fun l => l.head?) hsent) (by decide)

end AESLink

end Raims
