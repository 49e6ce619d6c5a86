import NsqClient.Conn
import NsqClient.Lib.CodeStream

set_option relaxedAutoImplicit false
set_option autoImplicit false

/-!
# Frames

The frames of the NSQ protocol as mathematical objects, what a connection owes to each of them,
and the passes of `decode` in these terms: a pass takes exactly one frame off the front of the
read buffer, or it leaves the buffer alone, or it panics.  The frame is a whole one, or it is what
there is of a frame whose last bytes are missing: the guards of `decode` let up to four of them be
missing, and `split_to` hands out the rest if the buffer has the capacity.

## Main definitions

* `NsqClient.Frame`, `NsqClient.Frame.wire` — a frame and its bytes.
* `NsqClient.Frame.WellFormed` — a frame a conforming server may send.
* `NsqClient.Conn.emit`, `NsqClient.Conn.emitAll` — what a connection does with frames.
* `NsqClient.Frame.Within` — the test of `decode` on the size of the last read.
* `NsqClient.Frame.Cut`, `NsqClient.Frame.SplitsOff`, `NsqClient.Parsed` — a frame without its last
  bytes, and how `decode` takes one frame, and several, off the front of a buffer.

## Main results

* `NsqClient.Conn.decodePass_splitsOff` — a pass on a buffer that starts with a frame.
* `NsqClient.Conn.exists_frame_of_decodePass` — a pass that goes on took a frame.
* `NsqClient.Conn.decodePass_part`, `NsqClient.Conn.decodePass_part_panics` — a pass on a buffer
  that holds a part of a frame.
-/

namespace NsqClient

/-- A frame: a size field, a type, and a payload. -/
structure Frame where
  size : List UInt8
  frameType : List UInt8
  payload : List UInt8
  length_size : size.length = 4
  length_frameType : frameType.length = 4

namespace Frame

/-- The bytes of a frame. -/
def wire (f : Frame) : List UInt8 := f.size ++ (f.frameType ++ f.payload)

/-- What `decode` reads in the size field. -/
def len (f : Frame) : ℕ := asUsize (readI32 f.size)

/-- The size field as `decode` reads it counts the type and the payload, and not itself. -/
def Honest (f : Frame) : Prop := f.len = f.payload.length + 4

/-- One to four bytes at the end of the payload are missing. -/
def Cut (f : Frame) : Prop := f.payload.length + 4 < f.len ∧ f.len ≤ f.payload.length + 8

/-- Where `rest` follows the frame, `split_to` gives it: it is whole, or it is all there is of a
frame and the buffer has the capacity of what is missing. -/
def SplitsOff (st : Storage) (rest : List UInt8) (f : Frame) : Prop :=
  f.Honest ∨ f.Cut ∧ rest = [] ∧ f.len - 4 ≤ st.capacity f.payload.length

/-- The size field as a number counts the type and the payload, and not itself. -/
def Spelled (f : Frame) : Prop := BigEndian.decode f.size = f.payload.length + 4

/-- The type of a frame. -/
def kind (f : Frame) : Int32 := readI32 f.frameType

/-- A frame that carries a message. -/
def isMessage (f : Frame) : Bool := f.kind = FRAME_TYPE_MESSAGE

/-- A heartbeat: any other frame with the payload of a heartbeat. -/
def isHeartbeat (f : Frame) : Bool := !f.isMessage && f.payload = Utf8.asBytes HEARTBEAT

/-- A frame that answers a command: a response or an error, and not a heartbeat. -/
def isReply (f : Frame) : Bool :=
  (f.kind = FRAME_TYPE_RESPONSE || f.kind = FRAME_TYPE_ERROR) &&
    f.payload ≠ Utf8.asBytes HEARTBEAT

/-- A frame whose payload `decode` can read: a message, or text. -/
def Readable (f : Frame) : Prop := f.isMessage = true ∨ (Utf8.fromUtf8 f.payload).isSome = true

instance (f : Frame) : Decidable f.Honest := inferInstanceAs (Decidable (_ = _))

instance (f : Frame) : Decidable f.Cut := inferInstanceAs (Decidable (_ ∧ _))

instance (st : Storage) (rest : List UInt8) (f : Frame) : Decidable (f.SplitsOff st rest) :=
  inferInstanceAs (Decidable (_ ∨ _))

instance (f : Frame) : Decidable f.Spelled := inferInstanceAs (Decidable (_ = _))

/-- A frame as the protocol has it: an honest size, a response, an error or a message, and a
text in the first two. -/
structure WellFormed (f : Frame) : Prop where
  spelled : f.Spelled
  kind_known : f.kind = FRAME_TYPE_RESPONSE ∨ f.kind = FRAME_TYPE_ERROR ∨
    f.kind = FRAME_TYPE_MESSAGE
  text : f.kind = FRAME_TYPE_RESPONSE ∨ f.kind = FRAME_TYPE_ERROR →
    (Utf8.fromUtf8 f.payload).isSome = true

/-- A frame of the protocol can be read. -/
theorem WellFormed.readable {f : Frame} (h : f.WellFormed) : f.Readable := by
  rcases h.kind_known with hk | hk | hk
  · exact .inr (h.text (.inl hk))
  · exact .inr (h.text (.inr hk))
  · exact .inl (by simp [isMessage, hk])

/-- The test of `decode` on the number of bytes of the last read (and, with the same numbers,
on the length of the buffer): at least a header, and at least what the size field says. -/
def Within (f : Frame) (size : ℕ) : Prop := HEADER_LENGTH ≤ size ∧ f.len ≤ size

instance (f : Frame) (size : ℕ) : Decidable (f.Within size) :=
  inferInstanceAs (Decidable (_ ∧ _))

/-- The test of `decode`, as numbers. -/
theorem within_iff {f : Frame} {size : ℕ} : f.Within size ↔ 8 ≤ size ∧ f.len ≤ size := Iff.rfl

/-- The frame up to so many bytes of its payload. -/
def upTo (f : Frame) (n : ℕ) : Frame := { f with payload := f.payload.take n }

/-- A part of a frame that reaches the payload is the frame up to there. -/
theorem wire_upTo {f : Frame} {buf : List UInt8} (hpre : buf <+: f.wire) (hlen : 8 ≤ buf.length) :
    (f.upTo (buf.length - 8)).wire = buf := by
  have hsize := f.length_size
  have htype := f.length_frameType
  have htake : buf = f.wire.take buf.length := List.prefix_iff_eq_take.mp hpre
  rw [wire, List.take_append, List.take_append, hsize, htype,
    List.take_of_length_le (by omega : f.size.length ≤ buf.length),
    List.take_of_length_le (by omega : f.frameType.length ≤ buf.length - 4)] at htake
  rw [Nat.sub_sub] at htake
  exact htake.symm

/-- The payload as `split_to` hands it out. -/
def handle (f : Frame) (st : Storage) : Handle :=
  ⟨f.payload, st.front (f.len - 4 - f.payload.length)⟩

/-- The message a message frame is forwarded as. -/
def msg (f : Frame) (timeout : UInt64) (st : Storage) : BytesMsg :=
  ⟨timeout, f.payload, st.front (f.len - 4 - f.payload.length)⟩

/-- The frame with the given type and payload. -/
def ofPayload (kind : ℕ) (payload : List UInt8) : Frame where
  size := BigEndian.encode 4 (payload.length + 4)
  frameType := BigEndian.encode 4 kind
  payload := payload
  length_size := BigEndian.length_encode 4 _
  length_frameType := BigEndian.length_encode 4 _

/-- A size field below `2 ^ 31` is read as the number it is; from there on it is read as a
number beyond any allocation. -/
theorem Spelled.honest_or {f : Frame} (h : f.Spelled) : f.Honest ∨ isizeMax < f.len := by
  have hlt : BigEndian.decode f.size < 256 ^ 4 := by
    rw [← f.length_size]
    exact BigEndian.decode_lt f.size
  have htake : f.size.take 4 = f.size := List.take_of_length_le (by rw [f.length_size])
  rw [Honest, len, readI32, htake, ← h]
  exact asUsize_ofNat_or hlt

/-- A read within an allocation never covers a size field that is read wrongly. -/
theorem Spelled.honest_of_within {f : Frame} (h : f.Spelled) {size : ℕ} (hsize : size ≤ isizeMax)
    (hw : f.Within size) : f.Honest := by
  rcases h.honest_or with hhonest | hhuge
  · exact hhonest
  · rw [within_iff] at hw
    omega

/-- A frame has eight bytes besides its payload. -/
theorem length_wire (f : Frame) : f.wire.length = f.payload.length + 8 := by
  simp only [wire, List.length_append, f.length_size, f.length_frameType]
  omega

theorem wire_ne_nil (f : Frame) : f.wire ≠ [] := by
  intro h
  have := f.length_wire
  rw [h, List.length_nil] at this
  omega

/-- The size field is the beginning of anything that starts with the frame and reaches it. -/
theorem take_of_prefix {f : Frame} {buf rest : List UInt8} (hpre : buf <+: f.wire ++ rest)
    (h : 4 ≤ buf.length) : buf.take 4 = f.size := by
  have hsize : f.size <+: f.wire ++ rest := by
    rw [wire, List.append_assoc]
    exact List.prefix_append _ _
  obtain ⟨rest, rfl⟩ : f.size <+: buf :=
    List.prefix_of_prefix_length_le hsize hpre (by rw [f.length_size]; exact h)
  exact List.take_left' f.length_size

/-- The size field is read off the front of anything that starts with the frame and reaches
it. -/
theorem readI32_of_prefix {f : Frame} {buf rest : List UInt8} (hpre : buf <+: f.wire ++ rest)
    (h : 4 ≤ buf.length) : asUsize (readI32 buf) = f.len := by
  have htake : f.size.take 4 = f.size := List.take_of_length_le (by rw [f.length_size])
  rw [len, readI32, readI32, take_of_prefix hpre h, htake]

/-- Frames of the same size field and of payloads of the same length are self-delimiting. -/
theorem wire_append_inj_of_length {f g : Frame} {rest rest' : List UInt8}
    (h : f.wire ++ rest = g.wire ++ rest')
    (hlen : f.len = g.len → f.payload.length = g.payload.length) : f = g ∧ rest = rest' := by
  simp only [wire, List.append_assoc] at h
  obtain ⟨hsize, h⟩ := List.append_inj h (by rw [f.length_size, g.length_size])
  obtain ⟨htype, h⟩ := List.append_inj h (by rw [f.length_frameType, g.length_frameType])
  obtain ⟨hpayload, hrest⟩ := List.append_inj h (hlen (by rw [len, len, hsize]))
  refine ⟨?_, hrest⟩
  cases f
  cases g
  cases hsize
  cases htype
  cases hpayload
  rfl

/-- Honest frames are self-delimiting. -/
theorem wire_append_inj {f g : Frame} {rest rest' : List UInt8} (hf : f.Honest) (hg : g.Honest)
    (h : f.wire ++ rest = g.wire ++ rest') : f = g ∧ rest = rest' := by
  refine wire_append_inj_of_length h fun hlen => ?_
  rw [Honest] at hf hg
  omega

/-- Frames as `decode` takes them are self-delimiting. -/
theorem SplitsOff.inj {st st' : Storage} {f g : Frame} {rest rest' : List UInt8}
    (hf : f.SplitsOff st rest) (hg : g.SplitsOff st' rest')
    (h : f.wire ++ rest = g.wire ++ rest') : f = g ∧ rest = rest' := by
  refine wire_append_inj_of_length h fun hlen => ?_
  have hbytes := congrArg List.length h
  rw [List.length_append, List.length_append, length_wire, length_wire] at hbytes
  rcases hf with hf | ⟨hf, rfl, -⟩
  · rcases hg with hg | ⟨hg, rfl, -⟩
    · rw [Honest] at hf hg
      omega
    · rw [Honest] at hf
      rw [Cut] at hg
      rw [List.length_nil] at hbytes
      omega
  · rcases hg with hg | ⟨hg, rfl, -⟩
    · rw [Cut] at hf
      rw [Honest] at hg
      rw [List.length_nil] at hbytes
      omega
    · rw [List.length_nil] at hbytes
      omega

/-- The size field of a frame as `decode` takes it is no more than its bytes. -/
theorem SplitsOff.bounds {st : Storage} {f : Frame} {rest : List UInt8} (h : f.SplitsOff st rest) :
    f.payload.length + 4 ≤ f.len ∧ f.len ≤ f.payload.length + 8 := by
  rcases h with h | ⟨h, -, -⟩
  · rw [Honest] at h
    omega
  · rw [Cut] at h
    omega

end Frame

/-- The bytes of a list of frames. -/
abbrev wire (fs : List Frame) : List UInt8 := CodeStream.stream Frame.wire fs

theorem wire_cons (f : Frame) (fs : List Frame) : wire (f :: fs) = f.wire ++ wire fs :=
  CodeStream.stream_cons Frame.wire f fs

theorem wire_append (fs gs : List Frame) : wire (fs ++ gs) = wire fs ++ wire gs :=
  CodeStream.stream_append Frame.wire fs gs

/-- `decode` takes these frames one after the other off the front of a buffer, and `rest` is left.
-/
def Parsed (st : Storage) : List Frame → List UInt8 → Prop
  | [], _ => True
  | f :: fs, rest => f.SplitsOff st (wire fs ++ rest) ∧ Parsed st fs rest

namespace Parsed

instance decidable (st : Storage) :
    (fs : List Frame) → (rest : List UInt8) → Decidable (Parsed st fs rest)
  | [], _ => inferInstanceAs (Decidable True)
  | _ :: fs, rest =>
    have := decidable st fs rest
    inferInstanceAs (Decidable (_ ∧ _))

variable {st : Storage} {fs gs : List Frame} {rest : List UInt8}

/-- Whole frames are taken one after the other. -/
theorem of_honest (h : ∀ f ∈ fs, f.Honest) : Parsed st fs rest := by
  induction fs with
  | nil => trivial
  | cons f fs ih =>
    exact ⟨.inl (h f List.mem_cons_self), ih fun g hg => h g (List.mem_cons_of_mem f hg)⟩

/-- Each of the frames is whole or without its last bytes. -/
theorem honest_or_cut (h : Parsed st fs rest) : ∀ f ∈ fs, f.Honest ∨ f.Cut := by
  induction fs with
  | nil => simp
  | cons f fs ih =>
    exact List.forall_mem_cons.mpr ⟨h.1.imp_right And.left, ih h.2⟩

/-- The frames of two lists. -/
theorem append_iff : Parsed st (fs ++ gs) rest ↔
    Parsed st fs (wire gs ++ rest) ∧ Parsed st gs rest := by
  induction fs with
  | nil => exact ⟨fun h => ⟨trivial, h⟩, And.right⟩
  | cons f fs ih =>
    rw [List.cons_append, Parsed, Parsed, ih, wire_append, List.append_assoc, and_assoc]

/-- If bytes are left, or nothing is beyond the end of the buffer, all frames are whole. -/
theorem honest (h : Parsed st fs rest) (hrest : rest ≠ []) : ∀ f ∈ fs, f.Honest := by
  induction fs with
  | nil => simp
  | cons f fs ih =>
    refine List.forall_mem_cons.mpr ⟨h.1.resolve_right ?_, ih h.2⟩
    rintro ⟨-, hnil, -⟩
    exact hrest (List.append_eq_nil_iff.mp hnil).2

/-- Without free capacity all frames are whole. -/
theorem honest_of_tight (h : Parsed st fs rest) (hst : st = .heap 0) : ∀ f ∈ fs, f.Honest := by
  subst hst
  induction fs with
  | nil => simp
  | cons f fs ih =>
    refine List.forall_mem_cons.mpr ⟨h.1.resolve_right ?_, ih h.2⟩
    rintro ⟨hcut, -, hcap⟩
    rw [Frame.Cut] at hcut
    simp only [Storage.capacity] at hcap
    omega

/-- All frames but the last are whole. -/
theorem honest_init {f : Frame} (h : Parsed st (fs ++ [f]) rest) : ∀ g ∈ fs, g.Honest := by
  refine (append_iff.mp h).1.honest fun hnil => ?_
  have := (List.append_eq_nil_iff.mp hnil).1
  rw [wire_cons] at this
  exact f.wire_ne_nil (List.append_eq_nil_iff.mp this).1

end Parsed

/-- A buffer that starts with a complete frame. -/
def StartsWithFrame (buf : List UInt8) : Prop := ∃ f : Frame, f.Spelled ∧ f.wire <+: buf

/-- A buffer in which the size field at the front is honest and fulfilled starts with a
complete frame. -/
theorem exists_frame_of_length {buf : List UInt8} (hlen : asUsize (readI32 buf) + 4 ≤ buf.length)
    (hsize : 4 ≤ asUsize (readI32 buf)) :
    ∃ (f : Frame) (rest : List UInt8), f.Honest ∧ buf = f.wire ++ rest := by
  have hread : readI32 (buf.take 4) = readI32 buf := by simp [readI32, List.take_take]
  let payload := ((buf.drop 4).drop 4).take (asUsize (readI32 buf) - 4)
  have hpayload : payload.length = asUsize (readI32 buf) - 4 := by
    simp only [payload, List.length_take, List.length_drop]
    omega
  refine ⟨⟨buf.take 4, (buf.drop 4).take 4, payload, ?_, ?_⟩,
    ((buf.drop 4).drop 4).drop (asUsize (readI32 buf) - 4), ?_, ?_⟩
  · rw [List.length_take]
    omega
  · rw [List.length_take, List.length_drop]
    omega
  · show asUsize (readI32 (buf.take 4)) = payload.length + 4
    rw [hread, hpayload]
    omega
  · simp only [Frame.wire, payload, List.append_assoc, List.take_append_drop]

/-- A part of a frame is shorter than any complete frame it could start with. -/
theorem not_startsWithFrame_of_part {fs : List Frame} (hfs : ∀ f ∈ fs, f.Spelled)
    {buf : List UInt8} (h : CodeStream.Part Frame.wire fs buf) : ¬ StartsWithFrame buf := by
  rintro ⟨g, hg, hpre⟩
  rcases h with rfl | ⟨f, fs', rfl, hf, hlt⟩
  · exact g.wire_ne_nil (List.prefix_nil.mp hpre)
  · have hlen := hpre.length_le
    rw [g.length_wire] at hlen
    have hsize : g.size = f.size := by
      obtain ⟨rest, rfl⟩ := hpre
      have hg4 := Frame.take_of_prefix (List.prefix_refl (g.wire ++ rest))
        (by rw [List.length_append, g.length_wire]; omega)
      rw [← hg4]
      exact Frame.take_of_prefix (hf.trans (List.prefix_append _ [])) (by omega)
    have hpayload : g.payload.length = f.payload.length := by
      have hf4 := hfs f List.mem_cons_self
      rw [Frame.Spelled, hsize] at hg
      rw [Frame.Spelled] at hf4
      omega
    rw [f.length_wire] at hlt
    omega

namespace Conn

/-! ## What a frame does to a connection -/

/-- The response a frame is pushed as. -/
def reply? (f : Frame) : Option Response :=
  if f.isReply then
    (Utf8.fromUtf8 f.payload).map fun s =>
      if f.kind = FRAME_TYPE_RESPONSE then .response s else .error s
  else none

/-- What a connection does with a frame. -/
def emit (c : Conn) (f : Frame) : Conn :=
  if f.isMessage then
    { c with s := c.s ++ [f.msg c.msgTimeout (c.storage 0)], inFlight := c.inFlight + 1 }
  else if f.isHeartbeat then { c with heartbeat := true }
  else { c with responses := c.responses ++ (reply? f).toList }

/-- What a connection does with a list of frames. -/
def emitAll (c : Conn) (fs : List Frame) : Conn := fs.foldl emit c

/-- The heartbeat text is the text with the bytes of a heartbeat. -/
theorem eq_heartbeat_iff {bs : List UInt8} {s : String} (h : Utf8.fromUtf8 bs = some s) :
    s = HEARTBEAT ↔ bs = Utf8.asBytes HEARTBEAT := by
  have hs := Utf8.asBytes_of_fromUtf8 h
  constructor
  · rintro rfl
    exact hs.symm
  · intro hb
    rw [hb] at hs
    exact Utf8.asBytes_injective hs

/-- A frame that can be read has its effect. -/
theorem onFrame_of_readable {f : Frame} (hf : f.Readable) (c : Conn) :
    onFrame f.kind (f.handle (c.storage 0)) c = .next (c.emit f) := by
  unfold onFrame emit
  by_cases hm : f.kind = FRAME_TYPE_MESSAGE
  · simp [hm, Frame.isMessage, Frame.handle, Frame.msg]
  · rcases hf with hf | hf
    · simp [Frame.isMessage, hm] at hf
    · obtain ⟨s, hs⟩ := Option.isSome_iff_exists.mp hf
      have hbeat := eq_heartbeat_iff hs
      simp only [hm, if_false, Frame.handle, hs, Frame.isMessage, Frame.isHeartbeat, reply?,
        Frame.isReply]
      by_cases hb : s = HEARTBEAT
      · simp [hb, hbeat.mp hb]
      · have hb' : f.payload ≠ Utf8.asBytes HEARTBEAT := fun h => hb (hbeat.mpr h)
        by_cases hr : f.kind = FRAME_TYPE_RESPONSE
        · simp [hb, hb', hr]
        · by_cases he : f.kind = FRAME_TYPE_ERROR
          · simp [hb, hb', he, show ¬ FRAME_TYPE_ERROR = FRAME_TYPE_RESPONSE by decide]
          · simp [hb, hb', hr, he]

/-- A frame that cannot be read makes `decode` panic. -/
theorem onFrame_of_not_readable {f : Frame} (hf : ¬ f.Readable) (st : Storage) (c : Conn) :
    onFrame f.kind (f.handle st) c = .fail (.utf8, c) := by
  simp only [Frame.Readable, Frame.isMessage, decide_eq_true_eq, not_or] at hf
  obtain ⟨hm, hn⟩ := hf
  have hnone : Utf8.fromUtf8 f.payload = none := by simpa using hn
  simp [onFrame, Frame.handle, hm, hnone]

/-! ## The passes of `decode` -/

/-- A pass on a buffer that starts with a frame returns unless the last read was as long as a
header and as long as the size field says. -/
theorem decodePass_of_not_within {f : Frame} {rest : List UInt8} {c : Conn}
    (h : c.rBuf = f.wire ++ rest) {size : ℕ} (hw : ¬ f.Within size) :
    decodePass size c = .ret c := by
  have hfs : asUsize (readI32 c.rBuf) = f.len := by
    rw [h]
    exact Frame.readI32_of_prefix (List.prefix_refl _)
      (by rw [List.length_append, f.length_wire]; omega)
  rw [Frame.within_iff] at hw
  rw [decodePass_eq, hfs, if_neg (by omega)]

/-- Otherwise it takes the frame, if `split_to` gives it. -/
theorem decodePass_splitsOff {f : Frame} {rest : List UInt8} {c : Conn}
    (h : c.rBuf = f.wire ++ rest) (hf : f.SplitsOff (c.storage 0) rest) {size : ℕ}
    (hw : f.Within size) :
    decodePass size c = onFrame f.kind (f.handle (c.storage 0)) { c with rBuf := rest } := by
  have hlen : c.rBuf.length = f.payload.length + 8 + rest.length := by
    rw [h, List.length_append, f.length_wire]
  have hfs : asUsize (readI32 c.rBuf) = f.len := by
    rw [h]
    exact Frame.readI32_of_prefix (List.prefix_refl _) (by rw [← h]; omega)
  have hdrop : c.rBuf.drop 4 = f.frameType ++ (f.payload ++ rest) := by
    rw [h, Frame.wire]
    simp only [List.append_assoc]
    exact List.drop_left' f.length_size
  have hbounds := hf.bounds
  rw [Frame.within_iff] at hw
  rw [decodePass_eq, hfs, if_pos (by omega), if_neg (by omega), hdrop,
    List.take_left' f.length_frameType, List.drop_left' f.length_frameType]
  rcases hf with hhonest | ⟨hcut, rfl, hcap⟩
  · rw [Frame.Honest] at hhonest
    have htake : (f.payload ++ rest).take (f.len - 4) = f.payload := List.take_left' (by omega)
    have hrest : (f.payload ++ rest).drop (f.len - 4) = rest := List.drop_left' (by omega)
    rw [Handle.splitTo_eq (by simp only [List.length_append]; omega), Frame.handle,
      show f.len - 4 - f.payload.length = 0 by omega]
    simp only [htake, hrest]
    rfl
  · rw [Frame.Cut] at hcut
    rw [List.append_nil, Handle.splitTo_eq_all (by simp only; omega) hcap]
    rfl

/-- A frame that can be read has its effect. -/
theorem decodePass_readable {f : Frame} {rest : List UInt8} {c : Conn}
    (h : c.rBuf = f.wire ++ rest) (hf : f.SplitsOff (c.storage 0) rest) {size : ℕ}
    (hw : f.Within size) (hread : f.Readable) :
    decodePass size c = .next (({ c with rBuf := rest } : Conn).emit f) :=
  (decodePass_splitsOff h hf hw).trans (onFrame_of_readable hread { c with rBuf := rest })

/-- A buffer at whose front the guards let a frame pass, and `split_to` does not panic, starts with
a frame as `decode` takes it. -/
theorem exists_splitsOff {st : Storage} {buf : List UInt8} {pieces : Handle × Handle}
    (hsize : 4 ≤ asUsize (readI32 buf)) (hheader : 8 ≤ buf.length)
    (hlen : asUsize (readI32 buf) ≤ buf.length)
    (h : Handle.splitTo ⟨(buf.drop 4).drop 4, st⟩ (asUsize (readI32 buf) - 4) = some pieces) :
    ∃ (f : Frame) (rest : List UInt8), f.SplitsOff st rest ∧ buf = f.wire ++ rest := by
  rcases Nat.lt_or_ge buf.length (asUsize (readI32 buf) + 4) with hpart | hwhole
  · unfold Handle.splitTo at h
    split_ifs at h with hcap
    have hread : readI32 (buf.take 4) = readI32 buf := by simp [readI32, List.take_take]
    have hdrop : ((buf.drop 4).drop 4).length = buf.length - 8 := by
      simp only [List.length_drop]
      omega
    refine ⟨⟨buf.take 4, (buf.drop 4).take 4, (buf.drop 4).drop 4, ?_, ?_⟩, [], ?_, ?_⟩
    · rw [List.length_take]
      omega
    · rw [List.length_take, List.length_drop]
      omega
    · refine .inr ⟨?_, rfl, ?_⟩
      · simp only [Frame.Cut, Frame.len, hread, hdrop]
        omega
      · simp only [Frame.len, hread]
        exact hcap
    · simp only [Frame.wire, List.append_nil, List.take_append_drop]
  · obtain ⟨f, rest, hhonest, hbuf⟩ := exists_frame_of_length hwhole hsize
    exact ⟨f, rest, .inl hhonest, hbuf⟩

/-- A pass that goes on took a frame that can be read, with a last read as long as it has to
be. -/
theorem exists_frame_of_decodePass {size : ℕ} {c c' : Conn} (h : decodePass size c = .next c') :
    ∃ (f : Frame) (rest : List UInt8), c.rBuf = f.wire ++ rest ∧ f.SplitsOff (c.storage 0) rest ∧
      f.Within size ∧ f.Readable ∧ c' = ({ c with rBuf := rest } : Conn).emit f := by
  have hframe : ∃ (f : Frame) (rest : List UInt8),
      f.SplitsOff (c.storage 0) rest ∧ c.rBuf = f.wire ++ rest := by
    rw [decodePass_eq] at h
    split_ifs at h with hguards hsmall
    split at h
    · cases h
    · rename_i hsplit
      exact exists_splitsOff (by omega) hguards.2.1 hguards.2.2.2 hsplit
  obtain ⟨f, rest, hf, hbuf⟩ := hframe
  by_cases hw : f.Within size
  · by_cases hr : f.Readable
    · rw [decodePass_readable hbuf hf hw hr] at h
      cases h
      exact ⟨f, rest, hbuf, hf, hw, hr, rfl⟩
    · rw [decodePass_splitsOff hbuf hf hw, onFrame_of_not_readable hr] at h
      cases h
  · rw [decodePass_of_not_within hbuf hw] at h
    cases h

/-- A pass on a part of a frame returns, unless the part and the last read are both as long as the
size field says. -/
theorem decodePass_part {f : Frame} {c : Conn} (hpre : c.rBuf <+: f.wire) {size : ℕ}
    (hw : ¬ (f.Within size ∧ f.Within c.rBuf.length)) : decodePass size c = .ret c := by
  simp only [Frame.within_iff] at hw
  rw [decodePass_eq]
  by_cases hbuf : 8 ≤ c.rBuf.length
  · rw [Frame.readI32_of_prefix (hpre.trans (List.prefix_append _ [])) (by omega),
      if_neg (by omega)]
  · rw [if_neg (by omega)]

/-- Then it panics, if the buffer does not have the capacity of the frame. -/
theorem decodePass_part_panics {f : Frame} {c : Conn} (hpre : c.rBuf <+: f.wire) {size : ℕ}
    (hw : f.Within size) (hw' : f.Within c.rBuf.length) (hfour : 4 ≤ f.len)
    (hcap : (c.storage 0).capacity (c.rBuf.length - 8) < f.len - 4) :
    decodePass size c = .fail (.splitTo, c) := by
  rw [Frame.within_iff] at hw hw'
  have hdrop : ((c.rBuf.drop 4).drop 4).length = c.rBuf.length - 8 := by
    simp only [List.length_drop]
    omega
  rw [decodePass_eq, Frame.readI32_of_prefix (hpre.trans (List.prefix_append _ [])) (by omega),
    if_pos (by omega), if_neg (by omega),
    Handle.splitTo_eq_none (by rw [Handle.capacity, hdrop]; exact hcap)]

/-- A frame never makes `decode` return. -/
theorem onFrame_ne_ret (frameType : Int32) (frame : Handle) (c c' : Conn) :
    onFrame frameType frame c ≠ .ret c' := by
  unfold onFrame
  split
  · exact nofun
  · split
    · exact nofun
    · split_ifs <;> exact nofun

/-- A pass that returns changes nothing. -/
theorem eq_of_decodePass_ret {size : ℕ} {c c' : Conn} (h : decodePass size c = .ret c') :
    c' = c := by
  rw [decodePass_eq] at h
  split_ifs at h
  · split at h
    · cases h
    · exact absurd h (onFrame_ne_ret _ _ _ _)
  · exact (Loop.Step.ret.inj h).symm

/-- Where `decode` stopped, it has taken every frame that is there and covered: of two ways to read
the bytes as frames, the one that goes on until `decode` stops extends the other. -/
theorem frames_of_stopped {size : ℕ} {c : Conn} {st : Storage} {fs gs : List Frame}
    {rest : List UInt8} (hstop : decodePass size c = .ret c) (hfs : Parsed st fs c.rBuf)
    (hgs : Parsed (c.storage 0) gs rest) (hwithin : ∀ g ∈ gs, g.Within size)
    (hbytes : wire gs ++ rest = wire fs ++ c.rBuf) :
    ∃ hs, fs = gs ++ hs ∧ rest = wire hs ++ c.rBuf := by
  induction gs generalizing fs with
  | nil => exact ⟨fs, rfl, hbytes⟩
  | cons g gs ih =>
    rw [wire_cons, List.append_assoc] at hbytes
    cases fs with
    | nil =>
      rw [decodePass_splitsOff hbytes.symm hgs.1 (hwithin g List.mem_cons_self)] at hstop
      exact absurd hstop (onFrame_ne_ret _ _ _ _)
    | cons f fs =>
      rw [wire_cons, List.append_assoc] at hbytes
      obtain ⟨rfl, htail⟩ := hgs.1.inj hfs.1 hbytes
      obtain ⟨hs, rfl, hrest⟩ := ih hfs.2 hgs.2
        (fun g' hg' => hwithin g' (List.mem_cons_of_mem _ hg')) htail
      exact ⟨hs, rfl, hrest⟩

/-- A pass on an empty buffer returns. -/
theorem decodePass_nil {c : Conn} (h : c.rBuf = []) (size : ℕ) : decodePass size c = .ret c := by
  simp [decodePass, h]

end Conn

end NsqClient
