import NsqClient.Rust
import NsqClient.Msgs

set_option relaxedAutoImplicit false
set_option autoImplicit false

/-!
# The codec

Writing commands into a buffer and reading messages out of a frame (`codec.rs`).

## Main definitions

* `NsqClient.writeMagic`, `NsqClient.writeCmd`, `NsqClient.writeMsg`, `NsqClient.writeMmsg` — the
  writers.
* `NsqClient.decodeMsg`, `NsqClient.msgFields` — the fields of a message frame.

## Main results

* `NsqClient.writeCmd_eq`, `NsqClient.writeMsg_eq` — the writers find the capacity they need and
  append their encoding.
* `NsqClient.decodeMsg_ok_iff` — the payloads on which a consumer does not panic.
-/

namespace NsqClient

/-- The smallest frame on the wire: a size and a type. -/
def HEADER_LENGTH : ℕ := 8

def FRAME_TYPE_RESPONSE : Int32 := 0
def FRAME_TYPE_ERROR : Int32 := 1
def FRAME_TYPE_MESSAGE : Int32 := 2

/-- The payload of a heartbeat. -/
def HEARTBEAT : String := "_heartbeat_"

/-- A response or an error frame. -/
inductive Response where
  | response (s : String)
  | error (s : String)
  deriving DecidableEq

/-! ## Writers -/

/-- `write_n`: the newline that ends a line. -/
def writeN (buf : BytesMut) : Except Panic BytesMut := buf.putU8 10

/-- `check_and_reserve`. -/
def checkAndReserve (buf : BytesMut) (size : ℕ) : BytesMut :=
  if buf.remainingMut < size then buf.reserve size else buf

/-- `write_magic`. -/
def writeMagic (buf : BytesMut) (cmd : String) : BytesMut :=
  (checkAndReserve buf (Utf8.asBytes cmd).length).extend (Utf8.asBytes cmd)

/-- `write_cmd`: a line. -/
def writeCmd (buf : BytesMut) (cmd : String) : Except Panic BytesMut :=
  let size := (Utf8.asBytes cmd).length + 1
  writeN ((checkAndReserve buf size).extend (Utf8.asBytes cmd))

/-- `write_msg`: a body behind its length. -/
def writeMsg (buf : BytesMut) (msg : List UInt8) : Except Panic BytesMut := do
  let size := 4 + msg.length
  let buf ← (checkAndReserve buf size).putU32Be msg.length
  pure (buf.extend msg)

/-- The size of the body of a multiple publish, added up in an `i32`. -/
def mmsgBodySize (msgs : List (List UInt8)) : Int32 :=
  msgs.foldl (fun sum e => sum + Int32.ofNat (e.length + 4)) 0 + 4

/-- `write_mmsg`: the size of the whole body, the number of messages, and each message behind
its length.  A negative sum becomes a request that no allocator grants. -/
def writeMmsg (buf : BytesMut) (msgs : List (List UInt8)) : Except Panic BytesMut := do
  let len := msgs.length
  let bodySize := asUsize (mmsgBodySize msgs)
  let request := (bodySize + 4) % 2 ^ 64
  if isizeMax < request then throw .capacityOverflow
  let buf ← (checkAndReserve buf request).putU32Be bodySize
  let buf ← buf.putU32Be len
  msgs.foldlM writeMsg buf

/-! ## What the writers append -/

/-- A line and its newline. -/
def lineBytes (cmd : String) : List UInt8 := Utf8.asBytes cmd ++ [10]

/-- A body behind the low 32 bits of its length. -/
def bodyBytes (msg : List UInt8) : List UInt8 := BigEndian.encode 4 msg.length ++ msg

/-- `check_and_reserve` leaves the contents alone. -/
@[simp] theorem bytes_checkAndReserve (buf : BytesMut) (n : ℕ) :
    (checkAndReserve buf n).bytes = buf.bytes := by
  unfold checkAndReserve
  split_ifs <;> simp

/-- `check_and_reserve(n)` leaves at least `n` bytes free. -/
theorem le_remainingMut_checkAndReserve (buf : BytesMut) (n : ℕ) :
    n ≤ (checkAndReserve buf n).remainingMut := by
  unfold checkAndReserve
  split_ifs with h
  · exact buf.le_remainingMut_reserve n
  · omega

/-- Free capacity beyond what is appended survives an `extend`. -/
theorem le_remainingMut_extend {buf : BytesMut} {src : List UInt8} {n : ℕ}
    (h : src.length + n ≤ buf.remainingMut) : n ≤ (buf.extend src).remainingMut := by
  have hr : buf.reserve src.length = buf := if_pos (by omega)
  simp only [BytesMut.remainingMut, BytesMut.extend, hr, List.length_append] at h ⊢
  omega

/-- The magic is appended. -/
@[simp] theorem bytes_writeMagic (buf : BytesMut) (cmd : String) :
    (writeMagic buf cmd).bytes = buf.bytes ++ Utf8.asBytes cmd := by
  simp [writeMagic]

/-- Writing a line finds the capacity it needs. -/
theorem writeCmd_eq (buf : BytesMut) (cmd : String) :
    ∃ buf', writeCmd buf cmd = .ok buf' ∧ buf'.bytes = buf.bytes ++ lineBytes cmd := by
  have hres := le_remainingMut_checkAndReserve buf ((Utf8.asBytes cmd).length + 1)
  have hfree : [(10 : UInt8)].length ≤ ((checkAndReserve buf _).extend _).remainingMut :=
    le_remainingMut_extend hres
  obtain ⟨buf', hput, hbytes, -⟩ := BytesMut.putSlice_eq hfree
  refine ⟨buf', hput, ?_⟩
  rw [hbytes]
  simp [lineBytes]

/-- Writing a body finds the capacity it needs. -/
theorem writeMsg_eq (buf : BytesMut) (msg : List UInt8) :
    ∃ buf', writeMsg buf msg = .ok buf' ∧ buf'.bytes = buf.bytes ++ bodyBytes msg := by
  have hres := le_remainingMut_checkAndReserve buf (4 + msg.length)
  have hfree : (BigEndian.encode 4 msg.length).length ≤
      (checkAndReserve buf (4 + msg.length)).remainingMut := by
    rw [BigEndian.length_encode]
    omega
  obtain ⟨buf', hput, hbytes, -⟩ := BytesMut.putSlice_eq hfree
  refine ⟨buf'.extend msg, ?_, ?_⟩
  · simp only [writeMsg, BytesMut.putU32Be, hput]
    rfl
  · simp [hbytes, bodyBytes]

/-- The body of a multiple publish. -/
def mmsgBytes (msgs : List (List UInt8)) : List UInt8 :=
  BigEndian.encode 4 (asUsize (mmsgBodySize msgs)) ++
    (BigEndian.encode 4 msgs.length ++ msgs.flatMap bodyBytes)

/-- Writing bodies one after the other appends them. -/
theorem foldlM_writeMsg_eq (buf : BytesMut) (msgs : List (List UInt8)) :
    ∃ buf', msgs.foldlM writeMsg buf = .ok buf' ∧
      buf'.bytes = buf.bytes ++ msgs.flatMap bodyBytes := by
  induction msgs generalizing buf with
  | nil => exact ⟨buf, rfl, by simp⟩
  | cons msg msgs ih =>
    obtain ⟨buf₁, hwrite, hbytes₁⟩ := writeMsg_eq buf msg
    obtain ⟨buf₂, hwrites, hbytes₂⟩ := ih buf₁
    refine ⟨buf₂, ?_, ?_⟩
    · rw [List.foldlM_cons, hwrite]
      exact hwrites
    · rw [hbytes₂, hbytes₁, List.flatMap_cons, List.append_assoc]

/-- Writing a multiple publish, if it succeeds, appends its body. -/
theorem bytes_of_writeMmsg {buf buf' : BytesMut} {msgs : List (List UInt8)}
    (h : writeMmsg buf msgs = .ok buf') : buf'.bytes = buf.bytes ++ mmsgBytes msgs := by
  unfold writeMmsg at h
  simp only at h
  split_ifs at h with hcap
  · cases h
  · obtain ⟨buf₁, hput₁, h⟩ := Except.bind_eq_ok.mp h
    obtain ⟨buf₂, hput₂, h⟩ := Except.bind_eq_ok.mp h
    obtain ⟨buf₃, hwrites, hbytes₃⟩ := foldlM_writeMsg_eq buf₂ msgs
    rw [hwrites] at h
    cases h
    rw [hbytes₃, BytesMut.bytes_of_putSlice hput₂, BytesMut.bytes_of_putSlice hput₁,
      bytes_checkAndReserve, mmsgBytes, List.append_assoc, List.append_assoc]

/-! ## Messages -/

/-- `decode_msg`: timestamp, attempts, id and body of a message frame; an id that is not UTF-8
reads as the empty string. -/
def decodeMsg (buf : Handle) : Except Panic (Int64 × UInt16 × String × List UInt8) :=
  match buf.splitTo 8 with
  | none => .error .splitTo
  | some (timestamp, buf) =>
    if timestamp.bytes.length < 8 then .error .readInt
    else
      match buf.splitTo 2 with
      | none => .error .splitTo
      | some (attemps, buf) =>
        if attemps.bytes.length < 2 then .error .readInt
        else
          match buf.splitTo 16 with
          | none => .error .splitTo
          -- the slice of the id is shorter where the payload is
          | some (idBytes, buf) =>
            .ok (Int64.ofNat (BigEndian.decode timestamp.bytes),
              UInt16.ofNat (BigEndian.decode attemps.bytes),
              (Utf8.fromUtf8 idBytes.bytes).getD "", buf.bytes)

/-- The fields of a payload, as far as it goes. -/
def msgFields (bs : List UInt8) : Int64 × UInt16 × String × List UInt8 :=
  (Int64.ofNat (BigEndian.decode (bs.take 8)), UInt16.ofNat (BigEndian.decode ((bs.drop 8).take 2)),
    (Utf8.fromUtf8 (((bs.drop 8).drop 2).take 16)).getD "", ((bs.drop 8).drop 2).drop 16)

/-- `decode_msg` panics on fewer than ten bytes. -/
theorem decodeMsg_of_lt {buf : Handle} (h : buf.bytes.length < 10) :
    ∃ p, decodeMsg buf = .error p := by
  unfold decodeMsg
  cases hfirst : buf.splitTo 8 with
  | none => exact ⟨_, rfl⟩
  | some pieces =>
    by_cases h8 : buf.bytes.length < 8
    · unfold Handle.splitTo at hfirst
      split_ifs at hfirst
      cases hfirst
      exact ⟨.readInt, if_pos (by rw [List.length_take]; omega)⟩
    · rw [Handle.splitTo_eq (by omega)] at hfirst
      cases hfirst
      simp only
      rw [if_neg (by rw [List.length_take]; omega)]
      cases hsecond : Handle.splitTo ⟨buf.bytes.drop 8, buf.storage⟩ 2 with
      | none => exact ⟨_, rfl⟩
      | some pieces =>
        unfold Handle.splitTo at hsecond
        split_ifs at hsecond
        cases hsecond
        exact ⟨.readInt, if_pos (by simp only [List.length_take, List.length_drop]; omega)⟩

/-- From there on the capacity decides. -/
theorem decodeMsg_of_le {buf : Handle} (h : 10 ≤ buf.bytes.length) : decodeMsg buf =
    if 16 ≤ buf.storage.capacity (buf.bytes.length - 10) then .ok (msgFields buf.bytes)
    else .error .splitTo := by
  have hlen : ((buf.bytes.drop 8).drop 2).length = buf.bytes.length - 10 := by
    simp only [List.length_drop]
    omega
  unfold decodeMsg
  rw [Handle.splitTo_eq (by omega)]
  simp only
  rw [if_neg (by rw [List.length_take]; omega),
    Handle.splitTo_eq (by rw [List.length_drop]; omega)]
  simp only
  rw [if_neg (by simp only [List.length_take, List.length_drop]; omega)]
  by_cases hcap : 16 ≤ buf.storage.capacity (buf.bytes.length - 10)
  · rw [if_pos hcap, Handle.splitTo, if_pos (by rw [Handle.capacity, hlen]; exact hcap)]
    rfl
  · rw [if_neg hcap, Handle.splitTo_eq_none]
    rw [Handle.capacity, hlen]
    exact Nat.lt_of_not_le hcap

/-- `decode_msg` does not panic if and only if there are ten bytes, and the handle has the capacity
of the sixteen after them; it then reads the fields as far as they go. -/
theorem decodeMsg_ok_iff {buf : Handle} {x : Int64 × UInt16 × String × List UInt8} :
    decodeMsg buf = .ok x ↔ 10 ≤ buf.bytes.length ∧
      16 ≤ buf.storage.capacity (buf.bytes.length - 10) ∧ msgFields buf.bytes = x := by
  by_cases hlen : 10 ≤ buf.bytes.length
  · rw [decodeMsg_of_le hlen]
    split_ifs with hcap <;> simp [hlen, hcap]
  · obtain ⟨p, hp⟩ := decodeMsg_of_lt (by omega : buf.bytes.length < 10)
    rw [hp]
    simp [hlen]

/-- Twenty-six bytes are always enough. -/
theorem decodeMsg_eq {buf : Handle} (h : 26 ≤ buf.bytes.length) :
    decodeMsg buf = .ok (msgFields buf.bytes) :=
  decodeMsg_ok_iff.mpr ⟨by omega, le_trans (by omega) (buf.storage.le_capacity _), rfl⟩

end NsqClient
