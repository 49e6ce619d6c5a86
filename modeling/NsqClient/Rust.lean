import NsqClient.Lib.BigEndian
import NsqClient.Lib.Except
import NsqClient.Lib.Utf8

set_option relaxedAutoImplicit false
set_option autoImplicit false

/-!
# What the client takes from Rust and its crates

Panics, integer casts, and the buffer type of the `bytes` crate.  Arithmetic is that of a
release build on a 64-bit target: fixed-width integers wrap, and `usize` has 64 bits.

## Main definitions

* `NsqClient.Panic` — why a thread of the client panics.
* `NsqClient.readI32`, `NsqClient.asUsize` — `BigEndian::read_i32` and the cast `as usize`.
* `NsqClient.Handle`, `NsqClient.Handle.splitTo` — a `BytesMut` that is read from, and
  `BytesMut::split_to`, which goes by the capacity.
* `NsqClient.BytesMut` — a write buffer: contents, capacity, and the allocator's rounding.
* `NsqClient.Alloc` — what the `bytes` crate and the allocator are free to choose.

## Main results

* `NsqClient.asUsize_ofNat_or` — what the casts make of a size field.
* `NsqClient.BytesMut.putSlice_eq` — a put succeeds when the free capacity suffices.
-/

namespace NsqClient

/-- Why a thread of the client panics. -/
inductive Panic where
  /-- `BytesMut::split_to` past the capacity of the buffer. -/
  | splitTo
  /-- `BigEndian::read_i64` or `read_u16` on too few bytes. -/
  | readInt
  /-- `frame_size - 4` below zero. -/
  | subOverflow
  /-- `str::from_utf8(..).unwrap()` on bytes that are not UTF-8. -/
  | utf8
  /-- `put_u8` or `put_u32_be` without free capacity. -/
  | bufferOverflow
  /-- A request for more than `isize::MAX` bytes. -/
  | capacityOverflow
  /-- `responses.pop().unwrap()` on an empty vector. -/
  | noResponse
  /-- `get_response(..).unwrap()` on an error frame. -/
  | errorResponse
  /-- `serde_json::from_str(..).expect(..)` on a reply that is not a configuration. -/
  | badIdentify
  /-- A read error other than `WouldBlock`. -/
  | socketRead
  /-- `out_info.send(..)` after every receiver is gone. -/
  | infoClosed
  /-- `poll` failed. -/
  | poll
  /-- `TlsConnector::new().unwrap()` failed. -/
  | tlsConnector
  /-- Not a panic: the decoding loop used up the passes it was given. -/
  | spin
  deriving DecidableEq, Repr

/-! ## Integers -/

/-- `BigEndian::read_i32` on the first four bytes. -/
def readI32 (bs : List UInt8) : Int32 := Int32.ofNat (BigEndian.decode (bs.take 4))

/-- `i as usize`: a negative number becomes a huge one. -/
def asUsize (i : Int32) : ℕ := (i.toInt % 2 ^ 64).toNat

/-- The largest size of an allocation, `isize::MAX`. -/
def isizeMax : ℕ := 2 ^ 63 - 1

/-- A number below `2 ^ 31` survives the two casts; from there on it becomes a number beyond
any allocation. -/
theorem asUsize_ofNat_or {n : ℕ} (h : n < 2 ^ 32) :
    asUsize (Int32.ofNat n) = n ∨ isizeMax < asUsize (Int32.ofNat n) := by
  have hmod : (Int32.ofNat n).toInt = (n : ℤ).bmod (2 ^ 32) := Int32.toInt_ofNat
  rw [asUsize, hmod, Int.bmod, isizeMax]
  split_ifs <;> omega

/-! ## Buffers -/

/-- Where a `BytesMut` that is read from keeps its contents: in the handle itself, which has room
for 31 bytes, or on the heap, with so many bytes free behind them. -/
inductive Storage where
  | inline
  | heap (room : ℕ)
  deriving DecidableEq, Repr

namespace Storage

/-- `capacity`, for contents of the given length, which always fit. -/
def capacity : Storage → ℕ → ℕ
  | inline, len => max 31 len
  | heap room, len => len + room

/-- The storage of what is split off, when so many bytes more were asked for than there are. -/
def front (beyond : ℕ) : Storage → Storage
  | inline => inline
  | heap _ => heap beyond

/-- The storage of the rest. -/
def back (beyond : ℕ) : Storage → Storage
  | inline => inline
  | heap room => heap (room - beyond)

/-- The contents fit. -/
theorem le_capacity (st : Storage) (len : ℕ) : len ≤ st.capacity len := by
  cases st with
  | inline => exact Nat.le_max_right 31 len
  | heap room => exact Nat.le_add_right len room

/-- A split within the contents leaves the rest where it is. -/
@[simp] theorem back_zero (st : Storage) : st.back 0 = st := by
  cases st <;> rfl

end Storage

/-- A `BytesMut` that is read from. -/
structure Handle where
  bytes : List UInt8
  storage : Storage
  deriving DecidableEq

namespace Handle

/-- `capacity`. -/
def capacity (buf : Handle) : ℕ := buf.storage.capacity buf.bytes.length

/-- `BytesMut::split_to`: the first `at` bytes and the rest.  The crate asserts that `at` is within
the capacity, and no more: past the end of the contents it hands out what there is. -/
def splitTo (buf : Handle) (at' : ℕ) : Option (Handle × Handle) :=
  if at' ≤ buf.capacity then
    some (⟨buf.bytes.take at', buf.storage.front (at' - buf.bytes.length)⟩,
      ⟨buf.bytes.drop at', buf.storage.back (at' - buf.bytes.length)⟩)
  else none

/-- Splitting within the contents. -/
theorem splitTo_eq {buf : Handle} {n : ℕ} (h : n ≤ buf.bytes.length) :
    buf.splitTo n =
      some (⟨buf.bytes.take n, buf.storage.front 0⟩, ⟨buf.bytes.drop n, buf.storage⟩) := by
  have hcap : n ≤ buf.capacity := h.trans (buf.storage.le_capacity _)
  rw [splitTo, if_pos hcap, Nat.sub_eq_zero_of_le h, Storage.back_zero]

/-- Splitting past the end, within the capacity. -/
theorem splitTo_eq_all {buf : Handle} {n : ℕ} (h : buf.bytes.length ≤ n) (hcap : n ≤ buf.capacity) :
    buf.splitTo n = some (⟨buf.bytes, buf.storage.front (n - buf.bytes.length)⟩,
      ⟨[], buf.storage.back (n - buf.bytes.length)⟩) := by
  rw [splitTo, if_pos hcap, List.take_of_length_le h, List.drop_of_length_le h]

/-- Splitting past the capacity. -/
theorem splitTo_eq_none {buf : Handle} {n : ℕ} (h : buf.capacity < n) : buf.splitTo n = none :=
  if_neg (by omega)

end Handle

/-- A `BytesMut` used for writing: its contents, its capacity, and the rounding `slack` of the
allocator, which adds `slack n` bytes to a requested capacity of `n`. -/
structure BytesMut where
  /-- The contents. -/
  bytes : List UInt8
  /-- How many bytes there is room for. -/
  capacity : ℕ
  /-- What the allocator hands out in addition to a requested capacity. -/
  slack : ℕ → ℕ
  /-- The contents fit the capacity. -/
  length_le : bytes.length ≤ capacity

namespace BytesMut

/-- `BytesMut::new()`: no contents, and the 31 bytes of the inline representation. -/
def new (slack : ℕ → ℕ) : BytesMut := ⟨[], 31, slack, Nat.zero_le _⟩

/-- `remaining_mut`: the free capacity. -/
def remainingMut (buf : BytesMut) : ℕ := buf.capacity - buf.bytes.length

/-- `reserve`: make room for `additional` more bytes. -/
def reserve (buf : BytesMut) (additional : ℕ) : BytesMut :=
  if additional ≤ buf.remainingMut then buf
  else
    { buf with
      capacity := buf.bytes.length + additional + buf.slack (buf.bytes.length + additional)
      length_le := by omega }

/-- The put operations of `BufMut`: they do not grow the buffer. -/
def putSlice (buf : BytesMut) (src : List UInt8) : Except Panic BytesMut :=
  if h : src.length ≤ buf.remainingMut then
    .ok { buf with
      bytes := buf.bytes ++ src
      length_le := by
        have := buf.length_le
        simp only [remainingMut, List.length_append] at h ⊢
        omega }
  else .error .bufferOverflow

/-- `put_u8`. -/
def putU8 (buf : BytesMut) (b : UInt8) : Except Panic BytesMut := buf.putSlice [b]

/-- `put_u32_be`. -/
def putU32Be (buf : BytesMut) (n : ℕ) : Except Panic BytesMut :=
  buf.putSlice (BigEndian.encode 4 n)

/-- `reserve(n)` leaves at least `n` bytes free. -/
theorem le_remainingMut_reserve (buf : BytesMut) (n : ℕ) :
    n ≤ (buf.reserve n).remainingMut := by
  unfold reserve
  split_ifs with h
  · exact h
  · simp only [remainingMut]
    omega

/-- `reserve` leaves the contents alone. -/
@[simp] theorem bytes_reserve (buf : BytesMut) (n : ℕ) : (buf.reserve n).bytes = buf.bytes := by
  unfold reserve
  split_ifs <;> rfl

/-- `extend`: reserve for the bytes, then append them. -/
def extend (buf : BytesMut) (src : List UInt8) : BytesMut :=
  { buf.reserve src.length with
    bytes := (buf.reserve src.length).bytes ++ src
    length_le := by
      have h := buf.le_remainingMut_reserve src.length
      have := (buf.reserve src.length).length_le
      simp only [remainingMut, List.length_append] at h ⊢
      omega }

/-- `clear`: drop the contents, keep the capacity. -/
def clear (buf : BytesMut) : BytesMut := { buf with bytes := [], length_le := Nat.zero_le _ }

/-- `extend` appends. -/
@[simp] theorem bytes_extend (buf : BytesMut) (src : List UInt8) :
    (buf.extend src).bytes = buf.bytes ++ src := by
  simp [extend]

/-- `clear` leaves nothing. -/
@[simp] theorem bytes_clear (buf : BytesMut) : buf.clear.bytes = [] := rfl

/-- A put succeeds when the free capacity suffices, appends its bytes, and uses up as much
capacity. -/
theorem putSlice_eq {buf : BytesMut} {src : List UInt8} (h : src.length ≤ buf.remainingMut) :
    ∃ buf', buf.putSlice src = .ok buf' ∧ buf'.bytes = buf.bytes ++ src ∧
      buf'.remainingMut = buf.remainingMut - src.length := by
  refine ⟨_, dif_pos h, rfl, ?_⟩
  simp only [remainingMut, List.length_append]
  omega

/-- A put that succeeds appends its bytes. -/
theorem bytes_of_putSlice {buf buf' : BytesMut} {src : List UInt8}
    (h : buf.putSlice src = .ok buf') : buf'.bytes = buf.bytes ++ src := by
  unfold putSlice at h
  split_ifs at h
  cases h
  rfl

end BytesMut

/-- What the `bytes` crate and the allocator are free to choose for one connection: by how much they
round up the capacity of the write buffer, and where the contents of the read buffer are, at first
and after each read that brings bytes. -/
structure Alloc where
  slack : ℕ → ℕ
  storage : ℕ → Storage

/-- Capacities are what is asked for, and everything is on the heap. -/
def Alloc.exact : Alloc := ⟨fun _ => 0, fun _ => .heap 0⟩

/-- The same, but the read buffer never outgrows its handle. -/
def Alloc.inline : Alloc := ⟨fun _ => 0, fun _ => .inline⟩

end NsqClient
