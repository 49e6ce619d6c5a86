import Mathlib.Data.List.Induction
import Mathlib.Tactic.Ring

set_option relaxedAutoImplicit false
set_option autoImplicit false

/-!
# Big-endian words

Fixed-width numbers on a byte stream, most significant byte first.  The width is a number of
bytes and is never bounded: a two-byte counter, a four-byte length and an eight-byte timestamp
are the same function at three widths.

## Main definitions

* `BigEndian.encode` — the `w` low-order bytes of a number.
* `BigEndian.decode` — the number a byte string spells.

## Main results

* `BigEndian.decode_encode`, `BigEndian.encode_decode` — the two are mutually inverse, the
  first modulo `256 ^ w`.
-/

namespace BigEndian

/-- The `w` low-order bytes of `n`, most significant first. -/
def encode : ℕ → ℕ → List UInt8
  | 0, _ => []
  | w + 1, n => encode w (n / 256) ++ [UInt8.ofNat n]

/-- The number a byte string spells, most significant byte first. -/
def decode (bs : List UInt8) : ℕ := bs.foldl (fun n b => 256 * n + b.toNat) 0

/-- An encoding is as long as its width. -/
@[simp] theorem length_encode (w n : ℕ) : (encode w n).length = w := by
  induction w generalizing n with
  | zero => rfl
  | succ w ih => simp [encode, ih]

/-- Nothing spells zero. -/
@[simp] theorem decode_nil : decode [] = 0 := rfl

/-- One more low-order byte. -/
theorem decode_concat (bs : List UInt8) (b : UInt8) :
    decode (bs ++ [b]) = 256 * decode bs + b.toNat := by
  simp [decode]

/-- Reading an encoding gives the number back, up to the bytes the width has no room for. -/
theorem decode_encode (w n : ℕ) : decode (encode w n) = n % 256 ^ w := by
  induction w generalizing n with
  | zero => simp [encode, Nat.mod_one]
  | succ w ih =>
    have hb : (UInt8.ofNat n).toNat = n % 256 := by simp
    rw [encode, decode_concat, ih, hb, pow_succ, mul_comm (256 ^ w) 256, Nat.mod_mul]
    ring

/-- Reading an encoding gives the number back when the width has room for it. -/
theorem decode_encode_of_lt {w n : ℕ} (h : n < 256 ^ w) : decode (encode w n) = n := by
  rw [decode_encode, Nat.mod_eq_of_lt h]

/-- A byte string spells a number below `256 ^ length`. -/
theorem decode_lt (bs : List UInt8) : decode bs < 256 ^ bs.length := by
  induction bs using List.reverseRecOn with
  | nil => simp
  | append_singleton bs b ih =>
    have hb := b.toNat_lt
    rw [decode_concat, List.length_append, List.length_singleton, pow_succ]
    omega

/-- A byte string is the encoding, at its own length, of the number it spells. -/
theorem encode_decode (bs : List UInt8) : encode bs.length (decode bs) = bs := by
  induction bs using List.reverseRecOn with
  | nil => rfl
  | append_singleton bs b ih =>
    have hb := b.toNat_lt
    have hdiv : (256 * decode bs + b.toNat) / 256 = decode bs := by omega
    have hlow : UInt8.ofNat (256 * decode bs + b.toNat) = b := by
      apply UInt8.toNat_inj.mp
      rw [UInt8.toNat_ofNat']
      omega
    rw [List.length_append, List.length_singleton, encode, decode_concat, hdiv, hlow, ih]

end BigEndian
