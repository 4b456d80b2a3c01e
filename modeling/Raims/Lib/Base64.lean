import Mathlib.Data.List.Basic

/-!
# Base64 without padding

Three bytes are four characters of six bits; of what is left over, one byte is two
characters and two bytes are three.
-/

namespace Base64

/-- The character of six bits. -/
def char (n : ℕ) : UInt8 :=
  if n < 26 then UInt8.ofNat (65 + n)
  else if n < 52 then UInt8.ofNat (71 + n)
  else if n < 62 then UInt8.ofNat (n - 4)
  else if n = 62 then 43
  else 47

/-- The six bits of a character; none of another has a meaning. -/
def value (c : UInt8) : ℕ :=
  let n := c.toNat
  if 65 ≤ n ∧ n ≤ 90 then n - 65
  else if 97 ≤ n ∧ n ≤ 122 then n - 71
  else if 48 ≤ n ∧ n ≤ 57 then n + 4
  else if n = 43 then 62
  else 63

def encode : List UInt8 → List UInt8
  | [] => []
  | [a] => [char (a.toNat / 4), char (a.toNat % 4 * 16)]
  | [a, b] =>
    [char (a.toNat / 4), char (a.toNat % 4 * 16 + b.toNat / 16), char (b.toNat % 16 * 4)]
  | a :: b :: c :: l =>
    char (a.toNat / 4) :: char (a.toNat % 4 * 16 + b.toNat / 16) ::
      char (b.toNat % 16 * 4 + c.toNat / 64) :: char (c.toNat % 64) :: encode l

/-- The bytes of four characters, less what was left over. -/
def decode : List UInt8 → List UInt8
  | p :: q :: r :: s :: l =>
    UInt8.ofNat (value p * 4 + value q / 16) :: UInt8.ofNat (value q % 16 * 16 + value r / 4) ::
      UInt8.ofNat (value r % 4 * 64 + value s) :: decode l
  | [p, q, r] =>
    [UInt8.ofNat (value p * 4 + value q / 16), UInt8.ofNat (value q % 16 * 16 + value r / 4)]
  | [p, q] => [UInt8.ofNat (value p * 4 + value q / 16)]
  | _ => []

/-- The characters of `n` bytes. -/
def size (n : ℕ) : ℕ := (n * 4 + 2) / 3

/-- The bytes of `n` characters. -/
def binSize (n : ℕ) : ℕ := n * 3 / 4

theorem value_char {n : ℕ} (h : n < 64) : value (char n) = n := by
  have hall : ∀ n < 64, value (char n) = n := by decide
  exact hall n h

theorem length_encode (l : List UInt8) : (encode l).length = size l.length := by
  induction l using encode.induct with
  | case1 => rfl
  | case2 a => simp [encode, size]
  | case3 a b => simp [encode, size]
  | case4 a b c l ih =>
    rw [encode, List.length_cons, List.length_cons, List.length_cons, List.length_cons, ih, size,
      size, List.length_cons, List.length_cons, List.length_cons]
    omega

theorem ofNat_eq {n : ℕ} {a : UInt8} (h : n = a.toNat) : UInt8.ofNat n = a := by
  rw [h, UInt8.ofNat_toNat]

theorem decode_encode (l : List UInt8) : decode (encode l) = l := by
  induction l using encode.induct with
  | case1 => rfl
  | case2 a =>
    have ha := a.toNat_lt
    rw [encode, decode, value_char (by omega), value_char (by omega)]
    rw [ofNat_eq (a := a) (by omega)]
  | case3 a b =>
    have ha := a.toNat_lt
    have hb := b.toNat_lt
    rw [encode, decode, value_char (by omega), value_char (by omega), value_char (by omega)]
    rw [ofNat_eq (a := a) (by omega), ofNat_eq (a := b) (by omega)]
  | case4 a b c l ih =>
    have ha := a.toNat_lt
    have hb := b.toNat_lt
    have hc := c.toNat_lt
    rw [encode, decode, value_char (by omega), value_char (by omega), value_char (by omega),
      value_char (by omega), ih]
    rw [ofNat_eq (a := a) (by omega), ofNat_eq (a := b) (by omega),
      ofNat_eq (a := c) (by omega)]

end Base64
