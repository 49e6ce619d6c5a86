import Mathlib.Data.List.Basic

set_option relaxedAutoImplicit false
set_option autoImplicit false

/-!
# Strings as byte lists

A string is a byte list that is valid UTF-8.

## Main definitions

* `Utf8.asBytes` — the bytes of a string.
* `Utf8.fromUtf8` — the string with the given bytes, if they are valid UTF-8.

## Main results

* `Utf8.fromUtf8_asBytes`, `Utf8.asBytes_of_fromUtf8` — the two are partial inverses.
* `Utf8.not_mem_asBytes` — an ASCII character absent from a string is a byte absent from its
  bytes.
-/

namespace Utf8

/-- The bytes of a string. -/
def asBytes (s : String) : List UInt8 := s.toUTF8.data.toList

/-- The string with the given bytes, if they are valid UTF-8. -/
def fromUtf8 (bs : List UInt8) : Option String := String.fromUTF8? ⟨bs.toArray⟩

/-- The bytes of a concatenation. -/
@[simp] theorem asBytes_append (s t : String) : asBytes (s ++ t) = asBytes s ++ asBytes t := by
  simp [asBytes]

/-- The empty string has no bytes. -/
@[simp] theorem asBytes_empty : asBytes "" = [] := rfl

/-- Reading back the bytes of a string gives the string. -/
@[simp] theorem fromUtf8_asBytes (s : String) : fromUtf8 (asBytes s) = some s := by
  have h : (⟨(asBytes s).toArray⟩ : ByteArray) = s.toByteArray := by simp [asBytes]
  simp only [fromUtf8, h, String.fromUTF8?]
  rw [dif_pos s.isValidUTF8]
  rfl

/-- A string read from bytes has these bytes. -/
theorem asBytes_of_fromUtf8 {bs : List UInt8} {s : String} (h : fromUtf8 bs = some s) :
    asBytes s = bs := by
  unfold fromUtf8 String.fromUTF8? at h
  split at h
  · cases h
    rfl
  · cases h

/-- Strings with the same bytes are equal. -/
theorem asBytes_injective {s t : String} (h : asBytes s = asBytes t) : s = t := by
  have hs := fromUtf8_asBytes s
  rw [h, fromUtf8_asBytes] at hs
  exact (Option.some.inj hs).symm

/-- The bytes of a string are the encodings of its characters. -/
theorem asBytes_eq_flatMap (s : String) : asBytes s = s.toList.flatMap String.utf8EncodeChar := by
  have h : s.toByteArray = s.toList.utf8Encode := by simp
  simp [asBytes, h, List.utf8Encode]

/-- A byte below `128` in the encoding of a character is the character itself. -/
theorem toNat_eq_of_mem_utf8EncodeChar {c : Char} {b : UInt8} (hb : b.toNat < 128)
    (h : b ∈ String.utf8EncodeChar c) : c.toNat = b.toNat := by
  change c.val.toNat = b.toNat
  -- a longer encoding has a marker of at least `0x80` in every byte
  unfold String.utf8EncodeChar at h
  dsimp only at h
  split_ifs at h with h1 h2 h3 <;> simp only [List.mem_cons, List.not_mem_nil, or_false] at h
  · rw [h, UInt8.toNat_ofNat']
    omega
  · exfalso
    rcases h with rfl | rfl <;> rw [UInt8.toNat_ofNat'] at hb <;> omega
  · exfalso
    rcases h with rfl | rfl | rfl <;> rw [UInt8.toNat_ofNat'] at hb <;> omega
  · exfalso
    rcases h with rfl | rfl | rfl | rfl <;> rw [UInt8.toNat_ofNat'] at hb <;> omega

/-- An ASCII character absent from a string is a byte absent from its bytes. -/
theorem not_mem_asBytes {s : String} {b : UInt8} (hb : b.toNat < 128)
    (h : Char.ofNat b.toNat ∉ s.toList) : b ∉ asBytes s := by
  rw [asBytes_eq_flatMap, List.mem_flatMap]
  rintro ⟨c, hc, hbc⟩
  have hn := toNat_eq_of_mem_utf8EncodeChar hb hbc
  apply h
  rwa [← hn, Char.ofNat_toNat]

end Utf8
