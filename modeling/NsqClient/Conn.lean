import NsqClient.Codec
import NsqClient.Config
import NsqClient.Lib.Loop

set_option relaxedAutoImplicit false
set_option autoImplicit false

/-!
# The connection

A connection with its two buffers, the queues it shares with the worker threads, and the
methods the event loop calls on it (`conn.rs`).

Reads and writes on the socket are nondeterministic: a method that reads or writes takes the
result the socket gives.  A method that can panic returns the connection as it is at that point
beside the reason.  The connection also keeps a log of what it did on its streams; the source
has no such field, and nothing in the model reads it.

## Main definitions

* `NsqClient.State`, `NsqClient.Conn` — the handshake states and the connection.
* `NsqClient.Obs` — what is logged.
* `NsqClient.Conn.identify`, `NsqClient.Conn.auth`, `NsqClient.Conn.subscribe`,
  `NsqClient.Conn.rdy` — the handshake commands.
* `NsqClient.Conn.decode`, `NsqClient.Conn.readTcp` — the incremental decoder.
* `NsqClient.Conn.writeCmd`, `NsqClient.Conn.writeTcp`, `NsqClient.Conn.writeMessages` — the
  writers.

## Main results

* `NsqClient.Conn.decodePass_eq` — a pass of the decoder, by its guards.
-/

namespace NsqClient

/-- The states of a connection, in the order of the handshake. -/
inductive State where
  | start
  | identify
  | tlsNegotiating
  | tls
  | auth
  | subscribe
  | rdy
  | started
  deriving DecidableEq, Repr

/-- The kinds of an `io::Error` the client tells apart. -/
inductive ErrorKind where
  | wouldBlock
  | other
  deriving DecidableEq, Repr

/-- What `read` on a socket gives: the bytes it put into the buffer, or an error. -/
abbrev ReadResult := Except ErrorKind (List UInt8)

/-- What `write` on a socket gives: how many bytes it accepted, or an error. -/
abbrev WriteResult := Except ErrorKind ℕ

/-- The two streams a connection is read from and written to: the instances of `STREAM`. -/
inductive Stream where
  | plain
  | tls
  deriving DecidableEq, Repr

/-- The commands of the handshake. -/
inductive Handshake where
  | identify
  | auth
  | subscribe
  | rdy
  deriving DecidableEq, Repr

/-- What a connection does, in the order in which it does it. -/
inductive Obs where
  /-- A read that brought these bytes. -/
  | read (k : Stream) (bs : List UInt8)
  /-- A call of `write` on a stream: what it was offered, and what it gave. -/
  | wrote (k : Stream) (offered : List UInt8) (res : WriteResult)
  /-- A handshake command handed to `write_cmd`, and `need_response` at that point. -/
  | handshake (h : Handshake) (needResponse : Bool)
  /-- The answer to a heartbeat handed to `write_cmd`. -/
  | nop
  /-- A command from the command channel handed to `write_cmd`, and the state at that point. -/
  | user (st : State) (cmd : Cmd)
  /-- A response taken by `get_response`. -/
  | response (r : Response)
  /-- The switch to TLS. -/
  | tlsEnabled
  /-- A stream shut down. -/
  | shutdown (k : Stream)
  /-- `IsConnected` with `connected = false` sent to the application. -/
  | disconnected
  deriving DecidableEq

/-- A connection.  `s` is all that was sent to the message channel, `r` the contents of the
command channel. -/
structure Conn where
  wBuf : BytesMut
  rBuf : List UInt8
  /-- Where `rBuf` is kept: now, and after each later read that brings bytes. -/
  storage : ℕ → Storage
  s : List BytesMsg
  r : List Cmd
  heartbeat : Bool
  responses : List Response
  config : Config
  inFlight : UInt32
  processed : UInt32
  needResponse : Bool
  state : State
  msgTimeout : UInt64
  /-- What the connection did so far. -/
  log : List Obs

namespace Conn

/-- `Conn::new`, with what the command channel holds already. -/
def new (config : Config) (r : List Cmd) (alloc : Alloc) : Conn where
  wBuf := .new alloc.slack
  rBuf := []
  storage := alloc.storage
  s := []
  r := r
  heartbeat := false
  responses := []
  config := config
  inFlight := 0
  processed := 0
  needResponse := false
  state := .start
  msgTimeout := 0
  log := []

/-- Record what happened. -/
def note (c : Conn) (o : Obs) : Conn := { c with log := c.log ++ [o] }

/-! ## Writing -/

/-- The encoder behind `write_cmd`: the line, then no body, one body, or the body of a multiple
publish. -/
def encodeCmd (buf : BytesMut) (msg : Cmd) : Except Panic BytesMut := do
  let buf ← NsqClient.writeCmd buf msg.cmd
  match msg.msg with
  | [] => pure buf
  | [m] => writeMsg buf m
  | ms => writeMmsg buf ms

/-- `write_cmd`: append a command to the write buffer. -/
def writeCmd (c : Conn) (msg : Cmd) : Except (Panic × Conn) Conn :=
  match encodeCmd c.wBuf msg with
  | .ok buf => .ok { c with wBuf := buf }
  | .error p => .error (p, c)

/-- `write_tcp`: one `write` of the whole buffer, which is empty afterwards whatever came of
it. -/
def writeTcp (k : Stream) (res : WriteResult) (c : Conn) : Except ErrorKind ℕ × Conn :=
  let c := c.note (.wrote k c.wBuf.bytes res)
  match res with
  | .ok 0 => (.ok 0, { c with wBuf := c.wBuf.clear })
  | .ok n => (.ok n, { c with wBuf := c.wBuf.clear })
  | .error e => (.error e, { c with wBuf := c.wBuf.clear })

/-- `write`. -/
def write (k : Stream) (res : WriteResult) (c : Conn) : Except ErrorKind ℕ × Conn :=
  c.writeTcp k res

/-- The body of the loop in `write_messages`. -/
def writeMessage (k : Stream) (res : WriteResult) (c : Conn) (msg : Cmd) :
    Except (Panic × Conn) Conn := do
  let c ← (c.note (.user c.state msg)).writeCmd msg
  let (_, c) := c.write k res
  pure { c with inFlight := c.inFlight - 1, processed := c.processed + 1 }

/-- The loop in `write_messages`, one write result for each command. -/
def writeEach (k : Stream) : (ℕ → WriteResult) → List Cmd → Conn → Except (Panic × Conn) Conn
  | _, [], c => .ok c
  | ws, msg :: msgs, c => do
    let c ← c.writeMessage k (ws 0) msg
    writeEach k (fun n => ws (n + 1)) msgs c

/-- `write_messages`: take everything from the command channel, then write one command after
the other. -/
def writeMessages (k : Stream) (ws : ℕ → WriteResult) (c : Conn) : Except (Panic × Conn) Conn :=
  writeEach k ws c.r { c with r := [] }

/-! ## The handshake -/

/-- `magic`. -/
def magic (c : Conn) : Conn :=
  { c with wBuf := writeMagic c.wBuf VERSION, state := .identify }

/-- `identify`. -/
def identify (json : Json) (c : Conn) : Except (Panic × Conn) Conn := do
  let c ← (c.note (.handshake .identify c.needResponse)).writeCmd
    (NsqCmd.identify (json.toString c.config)).asCmd
  pure { c with state := .identify, needResponse := true }

/-- `auth`. -/
def auth (secret : String) (c : Conn) : Except (Panic × Conn) Conn := do
  let c ← (c.note (.handshake .auth c.needResponse)).writeCmd (NsqCmd.auth secret).asCmd
  pure { c with state := .auth, needResponse := true }

/-- `subscribe`. -/
def subscribe (topic channel : String) (c : Conn) : Except (Panic × Conn) Conn := do
  let c ← (c.note (.handshake .subscribe c.needResponse)).writeCmd
    (NsqCmd.subscribe topic channel).asCmd
  pure { c with state := .subscribe, needResponse := true }

/-- `rdy`. -/
def rdy (n : UInt32) (c : Conn) : Except (Panic × Conn) Conn := do
  let c ← (c.note (.handshake .rdy c.needResponse)).writeCmd (NsqCmd.rdy n).asCmd
  pure { c with state := .started, needResponse := false }

/-- `tls_enabled`, on the connection. -/
def tlsEnabled (c : Conn) : Conn := { c.note .tlsEnabled with state := .tls }

/-- `get_response` on a response: the text, or that it was an error. -/
def response : Response → Except Unit String
  | .response r => .ok r
  | .error _ => .error ()

/-- `get_response`: the newest response. -/
def getResponse (c : Conn) : Except (Panic × Conn) (Except Unit String × Conn) :=
  match c.responses.getLast? with
  | none => .error (.noResponse, c)
  | some r => .ok (response r, { c.note (.response r) with responses := c.responses.dropLast })

/-- `heartbeat_done`. -/
def heartbeatDone (c : Conn) : Conn := { c with heartbeat := false }

/-! ## Reading -/

/-- What `decode` does with a frame once it is split off the buffer. -/
def onFrame (frameType : Int32) (frame : Handle) (c : Conn) : Loop.Step (Panic × Conn) Conn :=
  if frameType = FRAME_TYPE_MESSAGE then
    .next { c with
      s := c.s ++ [⟨c.msgTimeout, frame.bytes, frame.storage⟩], inFlight := c.inFlight + 1 }
  else
    match Utf8.fromUtf8 frame.bytes with
    | none => .fail (.utf8, c)
    | some s =>
      if s = HEARTBEAT then .next { c with heartbeat := true }
      else if frameType = FRAME_TYPE_RESPONSE then
        .next { c with responses := c.responses ++ [.response s] }
      else if frameType = FRAME_TYPE_ERROR then
        .next { c with responses := c.responses ++ [.error s] }
      else .next c

/-- The read buffer as the `BytesMut` it is. -/
def readBuf (c : Conn) : Handle := ⟨c.rBuf, c.storage 0⟩

/-- One pass through the loop of `decode`.  A split that goes past the end of the read buffer takes
some of its free capacity with it; the next read, which finds it empty, decides on it anew. -/
def decodePass (size : ℕ) (c : Conn) : Loop.Step (Panic × Conn) Conn :=
  -- buffer totally consumed
  if c.rBuf.isEmpty then .ret c
  -- the bytes of the last read are not enough
  else if size < HEADER_LENGTH then .ret c
  else if c.rBuf.length < HEADER_LENGTH then .ret c
  else
    let frameSize := asUsize (readI32 c.rBuf)
    if size < frameSize then .ret c
    else if c.rBuf.length < frameSize then .ret c
    else
      match c.readBuf.splitTo 4 with
      | none => .fail (.splitTo, c)
      | some (_, buf) =>
        match buf.splitTo 4 with
        | none => .fail (.splitTo, c)
        | some (frameType, buf) =>
          if frameSize < 4 then .fail (.subOverflow, c)
          else
            match buf.splitTo (frameSize - 4) with
            | none => .fail (.splitTo, c)
            | some (frame, buf) =>
              onFrame (readI32 frameType.bytes) frame { c with rBuf := buf.bytes }

/-- What a frame does leaves the read buffer alone. -/
theorem rBuf_of_onFrame {frameType : Int32} {frame : Handle} {c c' : Conn}
    (h : onFrame frameType frame c = .next c') : c'.rBuf = c.rBuf := by
  unfold onFrame at h
  split at h
  · cases h
    rfl
  · split at h
    · cases h
    · split_ifs at h <;> (cases h; rfl)

/-- A pass, by its guards: a header and as many bytes as the size field says have to be in the
buffer, and the last read has to be as long.  The first two splits then succeed. -/
theorem decodePass_eq (size : ℕ) (c : Conn) : decodePass size c =
    if 8 ≤ size ∧ 8 ≤ c.rBuf.length ∧ asUsize (readI32 c.rBuf) ≤ size ∧
        asUsize (readI32 c.rBuf) ≤ c.rBuf.length then
      if asUsize (readI32 c.rBuf) < 4 then .fail (.subOverflow, c)
      else
        match Handle.splitTo ⟨(c.rBuf.drop 4).drop 4, c.storage 0⟩
            (asUsize (readI32 c.rBuf) - 4) with
        | none => .fail (.splitTo, c)
        | some (frame, buf) =>
          onFrame (readI32 ((c.rBuf.drop 4).take 4)) frame { c with rBuf := buf.bytes }
    else .ret c := by
  have hheader : HEADER_LENGTH = 8 := rfl
  unfold decodePass
  by_cases hguards : 8 ≤ size ∧ 8 ≤ c.rBuf.length ∧ asUsize (readI32 c.rBuf) ≤ size ∧
      asUsize (readI32 c.rBuf) ≤ c.rBuf.length
  · have hne : c.rBuf.isEmpty = false := by
      rw [List.isEmpty_eq_false_iff, ← List.length_pos_iff]
      omega
    rw [if_pos hguards, hne]
    simp only [Bool.false_eq_true, if_false]
    rw [if_neg (by omega), if_neg (by omega), if_neg (by omega), if_neg (by omega),
      readBuf, Handle.splitTo_eq (by simp only; omega)]
    simp only
    rw [Handle.splitTo_eq (by simp only [List.length_drop]; omega)]
  · rw [if_neg hguards]
    dsimp only
    split_ifs
    · rfl
    · rfl
    · rfl
    · rfl
    · rfl
    · omega
    · omega

/-- A further pass starts from a shorter read buffer. -/
theorem length_rBuf_of_decodePass {size : ℕ} {c c' : Conn} (h : decodePass size c = .next c') :
    c'.rBuf.length < c.rBuf.length := by
  rw [decodePass_eq] at h
  split_ifs at h with hguards hsmall
  split at h
  · cases h
  · rename_i frame buf hsplit
    have hbuf : buf.bytes.length ≤ c.rBuf.length - 8 := by
      unfold Handle.splitTo at hsplit
      split_ifs at hsplit
      cases hsplit
      simp only [List.length_drop]
      omega
    rw [rBuf_of_onFrame h]
    simp only
    omega

/-- The loop of `decode`. -/
def decodeLoop (size : ℕ) : Loop.Measured (Panic × Conn) Conn where
  body := decodePass size
  size c := c.rBuf.length
  lt _ _ := length_rBuf_of_decodePass

/-- `decode`: take frames off the read buffer, `size` being the number of bytes of the last
read. -/
def decode (size : ℕ) (c : Conn) : Except (Panic × Conn) Conn :=
  (decodeLoop size).run (.spin, c) c

/-- `extend_from_slice` on the read buffer, with the bytes of a read. -/
def receive (c : Conn) (k : Stream) (bs : List UInt8) : Conn :=
  { c.note (.read k bs) with rBuf := c.rBuf ++ bs, storage := fun n => c.storage (n + 1) }

/-- `read_tcp`: append what the socket gives to the read buffer, and decode.  The vector the
socket reads into comes first; no allocator grants more than `isize::MAX` bytes. -/
def readTcp (k : Stream) (res : ReadResult) (c : Conn) :
    Except (Panic × Conn) (Except ErrorKind ℕ × Conn) :=
  if isizeMax < c.config.outputBufferSize.toNat then .error (.capacityOverflow, c)
  else
    match res with
    | .ok [] => .ok (.ok 0, c)
    | .ok bs => do
      let c ← decode bs.length (c.receive k bs)
      pure (.ok bs.length, c)
    | .error e => .ok (.error e, c)

/-- `read`. -/
def read (k : Stream) (res : ReadResult) (c : Conn) :
    Except (Panic × Conn) (Except ErrorKind ℕ × Conn) :=
  c.readTcp k res

end Conn

end NsqClient
