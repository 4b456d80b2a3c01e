import Raims.Pgm.PgmTransport
import Mathlib.Data.List.TakeDrop

/-!
# The fragments of a message of the multicast transport

What a trailer is read back as, and into which fragments a message is cut: those of a
message with a trail are the ones of its bytes in a row, unless the message ends in the
middle of a fragment and the trail does not end with it.
-/

namespace Raims

open Bytes

namespace FragTrailer

variable (t : FragTrailer)

theorem length_bytes : t.bytes.length = sizeofTrailer := by
  simp [bytes, sizeofTrailer]

/-- A field of the trailer, after those before it. -/
theorem bytesAt_bytes (pre mid post : List UInt8) {i n : ℕ} (h : t.bytes = pre ++ mid ++ post)
    (hi : pre.length = i) (hn : mid.length = n) : bytesAt t.bytes i n = mid :=
  bytesAt_of_isPrefix pre ⟨post, h.symm⟩ hi hn

/-- A trailer is read back from where it stands. -/
theorem ofMsg_append (pre post : List UInt8) :
    ofMsg (pre ++ (t.bytes ++ post)) (pre.length + sizeofTrailer) = t := by
  have hb : bytesAt (pre ++ (t.bytes ++ post)) (pre.length + sizeofTrailer - sizeofTrailer)
      sizeofTrailer = t.bytes := by
    rw [Nat.add_sub_cancel, ← t.length_bytes, bytesAt_middle]
  set b1 := le 8 t.srcId.toNat with hb1
  set b2 := le 8 t.srcTime.toNat with hb2
  set b3 := le 4 t.off.toNat with hb3
  set b4 := le 4 t.msgLen.toNat with hb4
  set b5 := le 4 t.hash.toNat with hb5
  set b6 := le 4 t.mark.toNat with hb6
  have hbytes : t.bytes = b1 ++ b2 ++ b3 ++ b4 ++ b5 ++ b6 := rfl
  have h0 : bytesAt t.bytes 0 8 = b1 :=
    t.bytesAt_bytes [] b1 (b2 ++ b3 ++ b4 ++ b5 ++ b6)
      (by rw [hbytes]; simp only [List.append_assoc, List.nil_append]) rfl (length_le 8 _)
  have h8 : bytesAt t.bytes 8 8 = b2 :=
    t.bytesAt_bytes b1 b2 (b3 ++ b4 ++ b5 ++ b6)
      (by rw [hbytes]; simp only [List.append_assoc]) (length_le 8 _) (length_le 8 _)
  have h16 : bytesAt t.bytes 16 4 = b3 :=
    t.bytesAt_bytes (b1 ++ b2) b3 (b4 ++ b5 ++ b6)
      (by rw [hbytes]; simp only [List.append_assoc]) (by simp [b1, b2]) (length_le 4 _)
  have h20 : bytesAt t.bytes 20 4 = b4 :=
    t.bytesAt_bytes (b1 ++ b2 ++ b3) b4 (b5 ++ b6)
      (by rw [hbytes]; simp only [List.append_assoc]) (by simp [b1, b2, b3]) (length_le 4 _)
  have h24 : bytesAt t.bytes 24 4 = b5 :=
    t.bytesAt_bytes (b1 ++ b2 ++ b3 ++ b4) b5 b6 hbytes (by simp [b1, b2, b3, b4])
      (length_le 4 _)
  have h28 : bytesAt t.bytes 28 4 = b6 :=
    t.bytesAt_bytes (b1 ++ b2 ++ b3 ++ b4 ++ b5) b6 []
      (by rw [hbytes, List.append_nil]) (by simp [b1, b2, b3, b4, b5]) (length_le 4 _)
  unfold ofMsg
  rw [hb]
  dsimp only
  rw [h0, h8, h16, h20, h24, h28, hb1, hb2, hb3, hb4, hb5, hb6, ofLe_le t.srcId.toNat_lt, ofLe_le t.srcTime.toNat_lt,
    ofLe_le t.off.toNat_lt, ofLe_le t.msgLen.toNat_lt, ofLe_le t.hash.toNat_lt,
    ofLe_le t.mark.toNat_lt]
  simp

/-- A packet that ends with a trailer. -/
theorem ofMsg_end (body : List UInt8) :
    ofMsg (body ++ t.bytes) (body ++ t.bytes).length = t := by
  have h := t.ofMsg_append body []
  rw [List.append_nil] at h
  rw [List.length_append, t.length_bytes]
  exact h

theorem isTrailer_end {body : List UInt8} (hbody : body ≠ []) (hmark : t.mark = trailerMark) :
    isTrailer (body ++ t.bytes) = true := by
  have hlen : (body ++ t.bytes).length = body.length + 32 := by
    rw [List.length_append, t.length_bytes]
    rfl
  have hpos := List.length_pos_iff.2 hbody
  have hlast : bytesAt (body ++ t.bytes) ((body ++ t.bytes).length - 4) 4 = le 4 t.mark.toNat := by
    refine bytesAt_of_isPrefix (body ++ (le 8 t.srcId.toNat ++ le 8 t.srcTime.toNat ++
      le 4 t.off.toNat ++ le 4 t.msgLen.toNat ++ le 4 t.hash.toNat)) ⟨[], ?_⟩ ?_ (length_le 4 _)
    · simp only [bytes, List.append_assoc, List.append_nil]
    · rw [hlen]
      simp
  unfold isTrailer
  rw [hlast, ofLe_le t.mark.toNat_lt, hlen, hmark]
  simp [sizeofTrailer]
  omega

end FragTrailer

/-! ## The fragments of a message with a trail -/

/-- The trail ends in the fragment that the message ends in, if that is not its end. -/
def TrailFits (fragSize msgLen trailLen : ℕ) : Prop :=
  msgLen % fragSize = 0 ∨ trailLen ≤ fragSize - msgLen % fragSize

instance (fragSize msgLen trailLen : ℕ) : Decidable (TrailFits fragSize msgLen trailLen) :=
  inferInstanceAs (Decidable (_ ∨ _))

/-- The sizes are those of the bytes in a row: `m` of the message, `k` of the trail and `p`
of the padding are left. -/
theorem trailSizes_eq {n m k p : ℕ} (hn : n < 2 ^ 16) (hpos : 0 < n) (hp : p ≤ 1)
    (hfits : TrailFits n m k) (hleft : 0 < m + k + p) :
    trailSizes (min n (m + k + p)) m k = (min m n, min k (n - m), min p (n - m - k)) := by
  unfold trailSizes
  rcases Nat.lt_or_ge m n with hm | hm
  · have hmod : m % n = m := Nat.mod_eq_of_lt hm
    have hcut : m = 0 ∨ k ≤ n - m := by
      unfold TrailFits at hfits
      rwa [hmod] at hfits
    dsimp only
    split
    · have hword : ∀ {a b : ℕ}, a < 2 ^ 16 → b ≤ a → (a + (2 ^ 64 - b)) % 2 ^ 64 = a - b := by
        intro a b ha hb
        omega
      rw [hword (by omega) (by omega)]
      have hthird : (if 0 < min n (m + k + p) - min m (min n (m + k + p)) -
          min k (min n (m + k + p)) then 1 else 0) = min p (n - m - k) := by
        split <;> omega
      rw [hthird]
      refine Prod.ext ?_ (Prod.ext ?_ rfl)
      · show min m _ = min m n
        omega
      · show min k _ = min k (n - m)
        omega
    · refine Prod.ext ?_ (Prod.ext ?_ ?_)
      · show min m _ = min m n
        omega
      · show 0 = min k (n - m)
        omega
      · show (if _ then 1 else 0) = min p (n - m - k)
        split <;> omega
  · have hzero : min n (m + k + p) - min m (min n (m + k + p)) = 0 := by omega
    dsimp only
    rw [hzero, if_neg (by omega), if_neg (by omega)]
    refine Prod.ext ?_ (Prod.ext ?_ ?_)
    · show min m _ = min m n
      omega
    · show 0 = min k (n - m)
      omega
    · show 0 = min p (n - m - k)
      omega

theorem trailFits_drop {n m k : ℕ} (hfits : TrailFits n m k) :
    TrailFits n (m - min m n) (k - min k (n - m)) := by
  unfold TrailFits at hfits ⊢
  rcases Nat.lt_or_ge m n with hm | hm
  · left
    rw [Nat.min_eq_left hm.le, Nat.sub_self, Nat.zero_mod]
  · rw [Nat.min_eq_right hm, ← Nat.mod_eq_sub_mod hm]
    rcases hfits with hfits | hfits
    · exact Or.inl hfits
    · exact Or.inr (Nat.le_trans (Nat.sub_le _ _) hfits)

/-- The fragments of a message whose trail fits are those of its bytes in a row. -/
theorem trailFrags_eq {n : ℕ} (hn : n < 2 ^ 16) (hpos : 0 < n) (left : ℕ) :
    ∀ (off p : ℕ) (msg frag : List UInt8), left = msg.length + frag.length + p → p ≤ 1 →
      TrailFits n msg.length frag.length →
      trailFrags n off left msg frag =
        msgFrags n off (msg ++ (frag ++ List.replicate p 0)) := by
  induction left using Nat.strong_induction_on with
  | _ left ih =>
    intro off p msg frag hleft hp hfits
    have hlen : (msg ++ (frag ++ List.replicate p 0)).length = left := by
      simp only [List.length_append, List.length_replicate]
      omega
    rw [trailFrags, msgFrags]
    by_cases hzero : left = 0
    · have hnil : msg ++ (frag ++ List.replicate p 0) = [] :=
        List.eq_nil_of_length_eq_zero (hlen.trans hzero)
      rw [dif_neg (by omega), dif_neg (fun h => h.2 hnil)]
    · have hne : msg ++ (frag ++ List.replicate p 0) ≠ [] := by
        intro hnil
        rw [hnil] at hlen
        exact hzero hlen.symm
      rw [dif_pos ⟨hpos, Nat.pos_of_ne_zero hzero⟩, dif_pos ⟨hpos, hne⟩]
      dsimp only
      rw [hleft, trailSizes_eq hn hpos hp hfits (by omega)]
      dsimp only
      have htake : msg.take (min msg.length n) ++ (frag.take (min frag.length (n - msg.length)) ++
          List.replicate (min p (n - msg.length - frag.length)) 0) =
          (msg ++ (frag ++ List.replicate p 0)).take n := by
        rw [List.take_append, List.take_append, List.take_replicate, Nat.min_comm,
          ← List.take_eq_take_min, Nat.min_comm frag.length, ← List.take_eq_take_min,
          Nat.min_comm p]
      have hdrop : (msg ++ (frag ++ List.replicate p 0)).drop n =
          msg.drop (min msg.length n) ++ (frag.drop (min frag.length (n - msg.length)) ++
            List.replicate (p - (n - msg.length - frag.length)) 0) := by
        have hmin : ∀ (l : List UInt8) (k : ℕ), l.drop (min l.length k) = l.drop k := by
          intro l k
          rcases Nat.le_total l.length k with hk | hk
          · rw [Nat.min_eq_left hk, List.drop_length, List.drop_eq_nil_of_le hk]
          · rw [Nat.min_eq_right hk]
        rw [List.drop_append, List.drop_append, List.drop_replicate, hmin, hmin]
      rw [htake, hdrop]
      congr 1
      refine ih _ (by omega) _ _ _ _ ?_ (by omega) ?_
      · simp only [List.length_drop]
        omega
      · simp only [List.length_drop]
        exact trailFits_drop hfits

end Raims
