import NsqClient.Conn
import NsqClient.Lib.Machine

set_option relaxedAutoImplicit false
set_option autoImplicit false

/-!
# The event loop

`Client::run` (`client.rs`): a loop over the plain socket, and, once the server agrees to TLS, a
second loop over the TLS stream.  Both wait in `poll` and handle the events of a batch one after
the other; a `break` drops the rest of the batch.

The two loops share most of their text.  What they share is defined once, with the stream as a
parameter; the two places in which they differ, the handling of a response and the choice of a
handshake command, are defined for each loop.

A step of the machine is one event of a batch, or what happens between two batches: a return of
`poll`, the TLS handshake, or a thread outside the loop that leaves something in a channel.

## Main definitions

* `NsqClient.Client`, `NsqClient.EventLoop` — the client, and the local state of `run`.
* `NsqClient.EventLoop.onReadable`, `NsqClient.EventLoop.onWritable`,
  `NsqClient.EventLoop.onEvent` — the handlers.
* `NsqClient.EventLoop.step` — the machine.
* `NsqClient.EventLoop.Mio` — an event of the connection has the readiness registered last.
-/

namespace NsqClient

/-- The fields of `Client` that `run` reads. -/
structure Client where
  topic : String
  channel : String
  secret : Option String
  rdy : UInt32
  config : Config

/-- `self.topic.len() == 0 && self.channel.len() == 0`: a client that only publishes. -/
def Client.isProducer (client : Client) : Bool := client.topic.isEmpty && client.channel.isEmpty

/-- The tokens registered with `poll`: `CONNECTION`, `CLIENT_TOKEN` and `CMD_TOKEN`. -/
inductive Token where
  | connection
  | client
  | cmd
  deriving DecidableEq, Repr

/-- `mio::Ready`, as far as `run` uses it. -/
inductive Ready where
  | readable
  | writable
  deriving DecidableEq, Repr

/-- An event of `poll`: its token, and whether it is readable (`is_readable()`) or not. -/
structure Event where
  token : Token
  readiness : Ready
  deriving DecidableEq, Repr

/-- What the environment answers while one event is handled: the read, the writes in their order,
and whether a receiver of `out_info` is left. -/
structure Io where
  read : ReadResult
  writes : ℕ → WriteResult
  infoOpen : Bool

/-- What the TLS library answers: to `TlsConnector::new()`, and then to `connect` or
`handshake`. -/
inductive TlsAnswer where
  | noConnector
  | connected
  | failure
  | wouldBlock
  deriving DecidableEq, Repr

/-- How `run` ends: it returns `Ok` or an error, it panics, or it exits the process. -/
inductive Halt where
  | returned (ok : Bool)
  | panicked (p : Panic)
  | exited
  deriving DecidableEq, Repr

/-- Where `run` is: in one of the two loops with the rest of a batch (at the head of the loop
when nothing is left), in the loop that retries the TLS handshake, or at its end. -/
inductive Phase where
  | plain (evts : List Event)
  | handshaking
  | tls (evts : List Event)
  | done (h : Halt)
  deriving DecidableEq, Repr

/-- The local state of `run`.  `rClose` counts the messages in `r_close`; `clock` and
`lastHeartbeat` are in nanoseconds. -/
structure EventLoop where
  conn : Conn
  nsqdConfig : NsqdConfig
  tls : UInt8
  /-- The interest the connection is registered with. -/
  interest : Ready
  rClose : ℕ
  clock : ℕ
  lastHeartbeat : ℕ
  phase : Phase

/-- How a handler leaves the rest of a batch: by `break`, or by the end of `run`. -/
inductive Leave where
  | brk (r : EventLoop)
  | halt (h : Halt) (r : EventLoop)

namespace EventLoop

/-- `run` up to the head of its loop: the magic is written and the connection is registered. -/
def start (client : Client) (r : List Cmd) (alloc : Alloc) (clock : ℕ) : EventLoop where
  conn := (Conn.new client.config r alloc).magic
  nsqdConfig := .default
  tls := 0
  interest := .writable
  rClose := 0
  clock := clock
  lastHeartbeat := clock
  phase := .plain []

variable (json : Json) (client : Client) (k : Stream) (io : Io)

/-! ## Calls of the methods of the connection -/

/-- A call that may panic. -/
def call (r : EventLoop) (x : Except (Panic × Conn) Conn) : Except Leave EventLoop :=
  match x with
  | .ok c => .ok { r with conn := c }
  | .error (p, c) => .error (.halt (.panicked p) { r with conn := c })

/-- `conn.get_response(..).unwrap()`. -/
def getResponse (r : EventLoop) : Except Leave (String × EventLoop) :=
  match r.conn.getResponse with
  | .ok (.ok resp, c) => .ok (resp, { r with conn := c })
  | .ok (.error _, c) => .error (.halt (.panicked .errorResponse) { r with conn := c })
  | .error (p, c) => .error (.halt (.panicked p) { r with conn := c })

/-- `conn.write(..)`, whose error is only logged. -/
def write (res : WriteResult) (r : EventLoop) : EventLoop :=
  { r with conn := (r.conn.write k res).2 }

/-- `conn.state = ..`. -/
def setState (st : State) (r : EventLoop) : EventLoop :=
  { r with conn := { r.conn with state := st } }

/-- The match on `conn.read(..)`. -/
def read (r : EventLoop) : Except Leave EventLoop :=
  match r.conn.read k io.read with
  | .error (p, c) => .error (.halt (.panicked p) { r with conn := c })
  | .ok (.ok 0, c) =>
    .error (.brk { r with
      conn := c
      interest := if c.needResponse then .readable else r.interest })
  | .ok (.error e, c) =>
    if e ≠ .wouldBlock then .error (.halt (.panicked .socketRead) { r with conn := c })
    else if io.infoOpen then .error (.brk { r with conn := c.note .disconnected })
    else .error (.halt (.panicked .infoClosed) { r with conn := c })
  | .ok (.ok _, c) => .ok { r with conn := c }

/-! ## A readable connection -/

/-- The choice between `AUTH` and `SUB` after a response. -/
def authOrSubscribe (r : EventLoop) : Except Leave EventLoop :=
  if r.nsqdConfig.authRequired then
    if client.secret.isNone then .error (.halt .exited r)
    else .ok (r.setState .auth)
  else .ok (r.setState .subscribe)

/-- The match on the state after a read, in the plain loop. -/
def plainResponse (r : EventLoop) : Except Leave EventLoop :=
  match r.conn.state with
  | .identify => do
    let (resp, r) ← r.getResponse
    match json.fromStr resp with
    | none => .error (.halt (.panicked .badIdentify) r)
    | some nsqdConfig =>
      let r := { r with
        nsqdConfig := nsqdConfig
        conn := { r.conn with msgTimeout := nsqdConfig.msgTimeout } }
      if nsqdConfig.tlsV1 then .error (.brk { r with tls := 1, conn := r.conn.tlsEnabled })
      else authOrSubscribe client r
  | .tls => do
    let (_, r) ← r.getResponse
    authOrSubscribe client r
  | .auth => do
    let (_, r) ← r.getResponse
    pure (r.setState .subscribe)
  | .subscribe => do
    let (_, r) ← r.getResponse
    pure (r.setState .rdy)
  | _ => pure r

/-- The match on the state after a read, in the TLS loop. -/
def tlsResponse (r : EventLoop) : Except Leave EventLoop :=
  match r.conn.state with
  | .tls => do
    let (_, r) ← r.getResponse
    authOrSubscribe client r
  | .auth => do
    let (_, r) ← r.getResponse
    pure (r.setState .subscribe)
  | .subscribe =>
    if client.isProducer then pure (r.setState .started)
    else do
      let (_, r) ← r.getResponse
      pure (r.setState .rdy)
  | _ => pure r

/-- The match on the state after a read. -/
def response (r : EventLoop) : Except Leave EventLoop :=
  match k with
  | .plain => plainResponse json client r
  | .tls => tlsResponse client r

/-- The branch of a readable connection. -/
def onReadable (r : EventLoop) : Except Leave EventLoop := do
  let r ← read k io r
  let r ←
    if r.conn.state ≠ .started then do
      let r ← response json client k r
      pure { r with conn := { r.conn with needResponse := false } }
    else pure r
  pure { r with interest := .writable }

/-! ## A writable connection -/

/-- The match on the state before a write, in the plain loop. -/
def plainCommand (r : EventLoop) : Except Leave EventLoop :=
  match r.conn.state with
  | .identify => r.call (r.conn.identify json)
  | .auth =>
    match client.secret with
    | some secret => r.call (r.conn.auth secret)
    | none => pure r
  | .subscribe => r.call (r.conn.subscribe client.topic client.channel)
  | .rdy => r.call (r.conn.rdy client.rdy)
  | _ => pure r

/-- The match on the state before a write, in the TLS loop. -/
def tlsCommand (r : EventLoop) : Except Leave EventLoop :=
  match r.conn.state with
  | .auth =>
    match client.secret with
    | some secret => r.call (r.conn.auth secret)
    | none => pure r
  | .subscribe =>
    if client.isProducer then pure (r.setState .started)
    else r.call (r.conn.subscribe client.topic client.channel)
  | .rdy => r.call (r.conn.rdy client.rdy)
  | _ => pure r

/-- The match on the state before a write. -/
def command (r : EventLoop) : Except Leave EventLoop :=
  match k with
  | .plain => plainCommand json client r
  | .tls => tlsCommand client r

/-- The branch of a writable connection before the handshake is over. -/
def onHandshake (r : EventLoop) : Except Leave EventLoop := do
  let r ← command json client k r
  let r := write k (io.writes 0) r
  pure { r with interest := if r.conn.needResponse then .readable else .writable }

/-- The answer to a heartbeat, if there was one. -/
def onHeartbeat (r : EventLoop) : Except Leave EventLoop :=
  if r.conn.heartbeat then do
    let r := { r with lastHeartbeat := r.clock }
    let r ← r.call ((r.conn.note .nop).writeCmd NsqCmd.nop.asCmd)
    let r := write k (io.writes 0) r
    pure { r with conn := r.conn.heartbeatDone }
  else pure r

/-- The branch of a writable connection once the handshake is over. -/
def onStarted (r : EventLoop) : Except Leave EventLoop := do
  let r ← onHeartbeat k io r
  let r ← r.call (r.conn.writeMessages k fun n => io.writes (n + 1))
  pure { r with interest := .readable }

/-- The branch of a connection that is not readable. -/
def onWritable (r : EventLoop) : Except Leave EventLoop :=
  if r.conn.state ≠ .started then onHandshake json client k io r else onStarted k io r

/-! ## Events -/

/-- A message from the control thread: the stream is shut down, the consumers are told, and
`run` returns. -/
def onClose (r : EventLoop) : Except Leave EventLoop :=
  if 0 < r.rClose then
    .error (.halt (.returned true) { r with
      rClose := r.rClose - 1
      conn := { r.conn.note (.shutdown k) with s := r.conn.s ++ [⟨0, [], .inline⟩] } })
  else .ok r

/-- The body of the loop over a batch. -/
def onEvent (e : Event) (r : EventLoop) : Except Leave EventLoop :=
  match e.token with
  | .cmd => onClose k r
  | .connection =>
    match e.readiness with
    | .readable => onReadable json client k io r
    | .writable => onWritable json client k io r
  | .client => r.call (r.conn.writeMessages k io.writes)

/-- Where `run` is after an event, `next` being the phase for the rest of a batch. -/
def after (next : List Event → Phase) (evts : List Event) : Except Leave EventLoop → EventLoop
  | .ok r => { r with phase := next evts }
  | .error (.brk r) => { r with phase := next [] }
  | .error (.halt h r) => { r with phase := .done h }

/-- `poll` returns, in the plain loop: without a heartbeat for more than 45 seconds the consumers
are told that the connection is closed. -/
def onPoll (now : ℕ) (r : EventLoop) : EventLoop :=
  let r := { r with clock := now }
  if 45 * 10 ^ 9 < r.clock - r.lastHeartbeat then
    { r with conn := { r.conn with s := r.conn.s ++ [⟨0, [], .inline⟩] } }
  else r

/-- The TLS handshake: with success the TLS loop begins, with the interest in reading. -/
def onTls (answer : TlsAnswer) (r : EventLoop) : EventLoop :=
  match answer with
  | .noConnector => { r with phase := .done (.panicked .tlsConnector) }
  | .connected => { r with interest := .readable, phase := .tls [] }
  | .failure => { r with phase := .done (.returned false) }
  | .wouldBlock => { r with phase := .handshaking }

/-- The steps. -/
inductive Label where
  /-- `Context::send` on another thread. -/
  | send (cmd : Cmd)
  /-- The control thread received a message. -/
  | close
  /-- `poll` returns with a batch. -/
  | poll (evts : List Event) (now : ℕ)
  /-- `poll` fails. -/
  | pollFailed
  /-- The TLS library answers. -/
  | tls (answer : TlsAnswer)
  /-- The next event of the batch is handled. -/
  | event (io : Io)

/-- The machine. -/
def step (json : Json) (client : Client) (r : EventLoop) : Label → Option EventLoop
  | .send cmd => some { r with conn := { r.conn with r := r.conn.r ++ [cmd] } }
  | .close => some { r with rClose := r.rClose + 1 }
  | .poll evts now =>
    match r.phase with
    | .plain [] => if r.tls = 1 then none else some { onPoll now r with phase := .plain evts }
    | .tls [] => some { r with clock := now, phase := .tls evts }
    | _ => none
  | .pollFailed =>
    match r.phase with
    | .plain [] => if r.tls = 1 then none else some { r with phase := .done (.panicked .poll) }
    | .tls [] => some { r with phase := .done (.panicked .poll) }
    | _ => none
  | .tls answer =>
    match r.phase with
    | .plain [] => if r.tls = 1 then some (onTls answer r) else none
    | .handshaking => if answer = .noConnector then none else some (onTls answer r)
    | _ => none
  | .event io =>
    match r.phase with
    | .plain (e :: evts) => some (after .plain evts (onEvent json client .plain io e r))
    | .tls (e :: evts) => some (after .tls evts (onEvent json client .tls io e r))
    | _ => none

/-! ## Runs -/

/-- The event that is handled next. -/
def nextEvent (r : EventLoop) : Option Event :=
  match r.phase with
  | .plain (e :: _) => some e
  | .tls (e :: _) => some e
  | _ => none

/-- `mio` delivers an event of the connection only with the readiness last registered. -/
def Mio (r : EventLoop) : Label → Prop
  | .event _ => ∀ e ∈ r.nextEvent, e.token = .connection → e.readiness = r.interest
  | _ => True

instance (r : EventLoop) : (l : Label) → Decidable (Mio r l)
  | .event _ =>
    inferInstanceAs
      (Decidable (∀ e ∈ r.nextEvent, e.token = .connection → e.readiness = r.interest))
  | .send _ => .isTrue trivial
  | .close => .isTrue trivial
  | .poll _ _ => .isTrue trivial
  | .pollFailed => .isTrue trivial
  | .tls _ => .isTrue trivial

/-- `run` has panicked or exited. -/
def Crashed (r : EventLoop) : Prop :=
  (∃ p, r.phase = .done (.panicked p)) ∨ r.phase = .done .exited

end EventLoop

end NsqClient
