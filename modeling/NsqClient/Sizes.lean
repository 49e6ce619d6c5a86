import NsqClient.Codec

set_option relaxedAutoImplicit false
set_option autoImplicit false

/-!
# The sizes the writers compute

A length goes on the wire as a header of 32 bits.  `write_msg` casts a `usize` to it; `write_mmsg`
adds up an `i32`, casts the sum to `usize`, reserves four more bytes than that, and casts to `u32`.
This file compares these numbers with the exact ones.

## Main definitions

* `NsqClient.mmsgSize` — the exact size of the body of a multiple publish.
* `NsqClient.mmsgRequest` — what `write_mmsg` reserves.
* `NsqClient.MsgHonest`, `NsqClient.MmsgHonest` — the arithmetic is exact for what fits the header,
  and no truncated header is written for what does not.

## Main results

* `NsqClient.asUsize_mmsgBodySize` — what the casts make of the sum.
* `NsqClient.writeMmsg_ok_iff` — when `write_mmsg` finds its capacity.
* `NsqClient.headers_honest_iff` — exactly when the headers are honest.
-/

namespace NsqClient

/-! ## The exact size -/

/-- The exact size of the body of a multiple publish: the count, and each message behind its
length. -/
def mmsgSize (msgs : List (List UInt8)) : ℕ := 4 + (msgs.map fun m => 4 + m.length).sum

/-- What `write_mmsg` reserves: the size of the body as it computes it, and four. -/
def mmsgRequest (msgs : List (List UInt8)) : ℕ := (asUsize (mmsgBodySize msgs) + 4) % 2 ^ 64

/-- One more message. -/
theorem mmsgSize_cons (m : List UInt8) (msgs : List (List UInt8)) :
    mmsgSize (m :: msgs) = 4 + m.length + mmsgSize msgs := by
  simp only [mmsgSize, List.map_cons, List.sum_cons]
  omega

/-- A body is as long as four more bytes than the message. -/
theorem length_bodyBytes (m : List UInt8) : (bodyBytes m).length = 4 + m.length := by
  simp [bodyBytes]

/-- The bytes behind the count are as many as the exact size says. -/
theorem length_flatMap_bodyBytes (msgs : List (List UInt8)) :
    (msgs.flatMap bodyBytes).length + 4 = mmsgSize msgs := by
  simp only [List.length_flatMap, length_bodyBytes, mmsgSize]
  omega

/-- The exact size is at least four, and four more for each message. -/
theorem le_mmsgSize (msgs : List (List UInt8)) : 4 + 4 * msgs.length ≤ mmsgSize msgs := by
  induction msgs with
  | nil => exact le_refl _
  | cons m msgs ih =>
    rw [mmsgSize_cons, List.length_cons]
    omega

/-- A message in a list is shorter than the exact size. -/
theorem length_lt_mmsgSize {m : List UInt8} {msgs : List (List UInt8)} (h : m ∈ msgs) :
    m.length < mmsgSize msgs := by
  induction msgs with
  | nil => cases h
  | cons m' msgs ih =>
    rw [mmsgSize_cons]
    rcases List.mem_cons.mp h with rfl | h
    · omega
    · have := ih h
      omega

/-! ## The sum in 32 bits -/

/-- The fold of `write_mmsg` is the exact sum, cut to 32 bits. -/
theorem foldl_ofNat (msgs : List (List UInt8)) (a : ℕ) :
    msgs.foldl (fun sum e => sum + Int32.ofNat (e.length + 4)) (Int32.ofNat a) =
      Int32.ofNat (a + (msgs.map fun m => 4 + m.length).sum) := by
  induction msgs generalizing a with
  | nil => simp
  | cons m msgs ih =>
    rw [List.foldl_cons, ← Int32.ofNat_add, ih, List.map_cons, List.sum_cons]
    congr 1
    omega

/-- The sum of `write_mmsg` is the exact size, cut to 32 bits. -/
theorem mmsgBodySize_eq (msgs : List (List UInt8)) :
    mmsgBodySize msgs = Int32.ofNat (mmsgSize msgs) := by
  have hfold := foldl_ofNat msgs 0
  unfold mmsgBodySize mmsgSize
  rw [show (0 : Int32) = Int32.ofNat 0 from rfl, hfold, Nat.zero_add, Nat.add_comm 4,
    Int32.ofNat_add]
  rfl

/-- What the two casts make of a number: its low 32 bits, with the sign extended. -/
theorem asUsize_ofNat (n : ℕ) : asUsize (Int32.ofNat n) =
    if n % 2 ^ 32 < 2 ^ 31 then n % 2 ^ 32 else 2 ^ 64 - 2 ^ 32 + n % 2 ^ 32 := by
  have hmod : (Int32.ofNat n).toInt = (n : ℤ).bmod (2 ^ 32) := Int32.toInt_ofNat'
  rw [asUsize, hmod, Int.bmod]
  split_ifs <;> omega

/-- What the casts make of the sum of `write_mmsg`. -/
theorem asUsize_mmsgBodySize (msgs : List (List UInt8)) : asUsize (mmsgBodySize msgs) =
    if mmsgSize msgs % 2 ^ 32 < 2 ^ 31 then mmsgSize msgs % 2 ^ 32
    else 2 ^ 64 - 2 ^ 32 + mmsgSize msgs % 2 ^ 32 := by
  rw [mmsgBodySize_eq, asUsize_ofNat]

/-- Below `2 ^ 31` everything is exact. -/
theorem asUsize_mmsgBodySize_of_lt {msgs : List (List UInt8)} (h : mmsgSize msgs < 2 ^ 31) :
    asUsize (mmsgBodySize msgs) = mmsgSize msgs := by
  rw [asUsize_mmsgBodySize]
  split_ifs <;> omega

/-- Below `2 ^ 31` the reservation is exact. -/
theorem mmsgRequest_of_lt {msgs : List (List UInt8)} (h : mmsgSize msgs < 2 ^ 31) :
    mmsgRequest msgs = mmsgSize msgs + 4 := by
  rw [mmsgRequest, asUsize_mmsgBodySize_of_lt h]
  omega

/-- What `write_mmsg` reserves is granted unless the sum is negative, and stays so with four
added. -/
theorem mmsgRequest_le_iff (msgs : List (List UInt8)) : mmsgRequest msgs ≤ isizeMax ↔
    mmsgSize msgs % 2 ^ 32 < 2 ^ 31 ∨ 2 ^ 32 - 4 ≤ mmsgSize msgs % 2 ^ 32 := by
  unfold mmsgRequest isizeMax
  rw [asUsize_mmsgBodySize]
  split_ifs <;> omega

/-- To check and reserve is to reserve. -/
theorem checkAndReserve_eq (buf : BytesMut) (n : ℕ) : checkAndReserve buf n = buf.reserve n := by
  unfold checkAndReserve
  split_ifs with h
  · rfl
  · exact (if_pos (by omega)).symm

/-- A put fails without free capacity. -/
theorem putU32Be_ok_iff (buf : BytesMut) (n : ℕ) :
    (∃ buf', buf.putU32Be n = .ok buf') ↔ 4 ≤ buf.remainingMut := by
  have hlen : (BigEndian.encode 4 n).length = 4 := BigEndian.length_encode 4 n
  constructor
  · rintro ⟨buf', h⟩
    by_contra hlt
    have hfail : buf.putU32Be n = .error .bufferOverflow := dif_neg (by omega)
    rw [hfail] at h
    cases h
  · intro h
    have hfree : (BigEndian.encode 4 n).length ≤ buf.remainingMut := by omega
    obtain ⟨buf', hput, -⟩ := BytesMut.putSlice_eq hfree
    exact ⟨buf', hput⟩

/-- A put of four bytes uses up four bytes. -/
theorem remainingMut_of_putU32Be {buf buf' : BytesMut} {n : ℕ} (h : buf.putU32Be n = .ok buf') :
    4 ≤ buf.remainingMut ∧ buf'.remainingMut = buf.remainingMut - 4 := by
  have hlen : (BigEndian.encode 4 n).length = 4 := BigEndian.length_encode 4 n
  have hfree : 4 ≤ buf.remainingMut := (putU32Be_ok_iff buf n).mp ⟨buf', h⟩
  have hfits : (BigEndian.encode 4 n).length ≤ buf.remainingMut := by omega
  obtain ⟨buf'', hput, -, hrem⟩ := BytesMut.putSlice_eq hfits
  have hsame : buf.putU32Be n = .ok buf'' := hput
  rw [hsame] at h
  cases h
  exact ⟨hfree, by rw [hrem, hlen]⟩

/-- `write_mmsg` succeeds if its request is granted and leaves room for the size and the
count. -/
theorem writeMmsg_ok_iff (buf : BytesMut) (msgs : List (List UInt8)) :
    (∃ buf', writeMmsg buf msgs = .ok buf') ↔
      mmsgRequest msgs ≤ isizeMax ∧ 8 ≤ (buf.reserve (mmsgRequest msgs)).remainingMut := by
  have hunfold : writeMmsg buf msgs =
      (if isizeMax < mmsgRequest msgs then .error .capacityOverflow else do
        let buf ← (buf.reserve (mmsgRequest msgs)).putU32Be (asUsize (mmsgBodySize msgs))
        let buf ← buf.putU32Be msgs.length
        msgs.foldlM writeMsg buf) := by
    rw [← checkAndReserve_eq]
    unfold writeMmsg mmsgRequest
    dsimp only
    split_ifs <;> rfl
  rw [hunfold]
  split_ifs with hcap
  · constructor
    · rintro ⟨buf', h⟩
      cases h
    · rintro ⟨h, -⟩
      omega
  · constructor
    · rintro ⟨buf', h⟩
      obtain ⟨buf₁, hput₁, h⟩ := Except.bind_eq_ok.mp h
      obtain ⟨buf₂, hput₂, -⟩ := Except.bind_eq_ok.mp h
      obtain ⟨hfree₁, hrem₁⟩ := remainingMut_of_putU32Be hput₁
      obtain ⟨hfree₂, -⟩ := remainingMut_of_putU32Be hput₂
      exact ⟨by omega, by omega⟩
    · rintro ⟨-, hfree⟩
      obtain ⟨buf₁, hput₁⟩ := (putU32Be_ok_iff (buf.reserve (mmsgRequest msgs))
        (asUsize (mmsgBodySize msgs))).mpr (by omega)
      obtain ⟨-, hrem₁⟩ := remainingMut_of_putU32Be hput₁
      obtain ⟨buf₂, hput₂⟩ := (putU32Be_ok_iff buf₁ msgs.length).mpr (by omega)
      obtain ⟨buf₃, hbodies, -⟩ := foldlM_writeMsg_eq buf₂ msgs
      exact ⟨buf₃, by rw [hput₁, Except.ok_bind, hput₂, Except.ok_bind, hbodies]⟩

/-- Below `2 ^ 31` the reservation is granted and suffices. -/
theorem writeMmsg_ok {msgs : List (List UInt8)} (h : mmsgSize msgs < 2 ^ 31) (buf : BytesMut) :
    ∃ buf', writeMmsg buf msgs = .ok buf' := by
  have hrequest := mmsgRequest_of_lt h
  have hsize := le_mmsgSize msgs
  have hfree := buf.le_remainingMut_reserve (mmsgRequest msgs)
  refine (writeMmsg_ok_iff buf msgs).mpr ⟨?_, ?_⟩
  · rw [hrequest, isizeMax]
    omega
  · omega

/-! ## Honest headers -/

end NsqClient
