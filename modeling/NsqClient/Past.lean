import NsqClient.EventLoop
import NsqClient.Writing

set_option relaxedAutoImplicit false
set_option autoImplicit false

/-!
# The past plays no part

What was sent to the message channel, the number of messages in flight and the log are only ever
added to.  So a step does not depend on them: with another past it does the same.  Nor do the
methods of the connection depend on the stream they are called with; the log tells it, and nothing
else.

## Main definitions

* `NsqClient.Past` — what has been sent, counted and logged.
* `NsqClient.Conn.past`, `NsqClient.Conn.forget` — the past of a connection, and what is left
  without it.
* `NsqClient.Conn.since`, `NsqClient.EventLoop.since` — a connection and an event loop with a past
  in front of their own.
* `NsqClient.Conn.recast`, `NsqClient.EventLoop.recast` — the same, on other streams.

## Main results

* `NsqClient.EventLoop.onEvent_recast` — another past and other streams pass through an event, if
  they pass through the two matches on the state.
* `NsqClient.EventLoop.step_since` — a past in front passes through a step.
* `NsqClient.EventLoop.run_since` — and through a run.
-/

namespace NsqClient

/-- What has been sent to the message channel, the messages in flight, and the log. -/
structure Past where
  sent : List BytesMsg
  inFlight : UInt32
  log : List Obs

/-- An entry of the log on another stream. -/
def Obs.via (σ : Stream → Stream) : Obs → Obs
  | read k bs => read (σ k) bs
  | wrote k offered res => wrote (σ k) offered res
  | shutdown k => shutdown (σ k)
  | o => o

theorem Obs.via_id (o : Obs) : o.via id = o := by
  cases o <;> rfl

namespace Conn

variable (σ : Stream → Stream) (p : Past)

/-- The connection with a past in front of its own. -/
def since (c : Conn) : Conn :=
  { c with s := p.sent ++ c.s, inFlight := p.inFlight + c.inFlight, log := p.log ++ c.log }

/-- The connection with a past in front of its own, which was on other streams. -/
def recast (c : Conn) : Conn :=
  { c with
    s := p.sent ++ c.s
    inFlight := p.inFlight + c.inFlight
    log := p.log ++ c.log.map (Obs.via σ) }

/-- On the same streams there is only the past. -/
theorem recast_id : recast id p = since p := by
  funext c
  have hvia : Obs.via id = id := funext Obs.via_id
  rw [recast, since, hvia, List.map_id]

/-- The past of a connection. -/
def past (c : Conn) : Past := ⟨c.s, c.inFlight, c.log⟩

/-- The connection without its past. -/
def forget (c : Conn) : Conn := { c with s := [], inFlight := 0, log := [] }

/-- The change of a panic that comes with it. -/
def recastPanic (e : Panic × Conn) : Panic × Conn := (e.1, e.2.recast σ p)

theorem note_recast (c : Conn) (o : Obs) :
    (c.recast σ p).note (o.via σ) = (c.note o).recast σ p := by
  simp [note, recast]

/-! ## Reading -/

theorem onFrame_recast (frameType : Int32) (frame : Handle) (c : Conn) :
    onFrame frameType frame (c.recast σ p) =
      (onFrame frameType frame c).map (recastPanic σ p) (recast σ p) := by
  unfold onFrame
  by_cases hmsg : frameType = FRAME_TYPE_MESSAGE
  · rw [if_pos hmsg, if_pos hmsg]
    simp [Loop.Step.map, recast, UInt32.add_assoc]
  · rw [if_neg hmsg, if_neg hmsg]
    cases Utf8.fromUtf8 frame.bytes with
    | none => rfl
    | some s =>
      simp only
      split_ifs <;> rfl

theorem decodePass_recast (size : ℕ) (c : Conn) :
    decodePass size (c.recast σ p) = (decodePass size c).map (recastPanic σ p) (recast σ p) := by
  have hbuf : (c.recast σ p).rBuf = c.rBuf := rfl
  have hstorage : (c.recast σ p).storage = c.storage := rfl
  rw [decodePass_eq, decodePass_eq, hbuf, hstorage]
  split_ifs
  · rfl
  · split
    · rfl
    · rename_i frame buf _
      exact onFrame_recast σ p _ frame { c with rBuf := buf.bytes }
  · rfl

theorem decode_recast (size : ℕ) (c : Conn) :
    decode size (c.recast σ p) = (decode size c).mapBoth (recastPanic σ p) (recast σ p) :=
  (decodeLoop size).run_map (.spin, c) (decodePass_recast σ p size) c

theorem read_recast (k : Stream) (res : ReadResult) (c : Conn) :
    (c.recast σ p).read (σ k) res =
      (c.read k res).mapBoth (recastPanic σ p) (Prod.map id (recast σ p)) := by
  unfold read readTcp
  have hsize : (c.recast σ p).config = c.config := rfl
  rw [hsize]
  split_ifs
  · rfl
  · rcases res with e | _ | ⟨b, bs⟩
    · rfl
    · rfl
    · have hnote : (c.recast σ p).note (.read (σ k) (b :: bs)) =
          (c.note (.read k (b :: bs))).recast σ p := note_recast σ p c (.read k (b :: bs))
      have hfeed : (c.recast σ p).receive (σ k) (b :: bs) =
          (c.receive k (b :: bs)).recast σ p := by
        rw [receive, hnote]
        rfl
      dsimp only
      rw [hfeed, decode_recast]
      exact Except.mapBoth_bind fun _ => rfl

/-! ## Writing -/

theorem writeCmd_recast (msg : Cmd) (c : Conn) :
    (c.recast σ p).writeCmd msg = (c.writeCmd msg).mapBoth (recastPanic σ p) (recast σ p) := by
  unfold writeCmd
  have hbuf : (c.recast σ p).wBuf = c.wBuf := rfl
  rw [hbuf]
  cases encodeCmd c.wBuf msg <;> rfl

theorem write_recast (k : Stream) (res : WriteResult) (c : Conn) :
    (c.recast σ p).write (σ k) res = Prod.map id (recast σ p) (c.write k res) := by
  have hnote : (c.recast σ p).note (.wrote (σ k) c.wBuf.bytes res) =
      (c.note (.wrote k c.wBuf.bytes res)).recast σ p :=
    note_recast σ p c (.wrote k c.wBuf.bytes res)
  have hbuf : (c.recast σ p).wBuf = c.wBuf := rfl
  rw [write, write, writeTcp_eq, writeTcp_eq, hbuf, hnote]
  rfl

theorem writeMessage_recast (k : Stream) (res : WriteResult) (msg : Cmd) (c : Conn) :
    (c.recast σ p).writeMessage (σ k) res msg =
      (c.writeMessage k res msg).mapBoth (recastPanic σ p) (recast σ p) := by
  unfold writeMessage
  have hnote : (c.recast σ p).note (.user (c.recast σ p).state msg) =
      (c.note (.user c.state msg)).recast σ p := note_recast σ p c (.user c.state msg)
  rw [hnote, writeCmd_recast]
  refine Except.mapBoth_bind fun c' => ?_
  have hsub : p.inFlight + (c'.write k res).2.inFlight - 1 =
      p.inFlight + ((c'.write k res).2.inFlight - 1) := by
    rw [UInt32.sub_eq_add_neg, UInt32.sub_eq_add_neg, UInt32.add_assoc]
  rw [write_recast]
  simp only [Prod.map, recast, hsub]
  rfl

theorem writeEach_recast (k : Stream) (ws : ℕ → WriteResult) (msgs : List Cmd) (c : Conn) :
    writeEach (σ k) ws msgs (c.recast σ p) =
      (writeEach k ws msgs c).mapBoth (recastPanic σ p) (recast σ p) := by
  induction msgs generalizing ws c with
  | nil => rfl
  | cons msg msgs ih =>
    rw [writeEach, writeEach, writeMessage_recast]
    exact Except.mapBoth_bind fun c' => ih _ c'

theorem writeMessages_recast (k : Stream) (ws : ℕ → WriteResult) (c : Conn) :
    (c.recast σ p).writeMessages (σ k) ws =
      (c.writeMessages k ws).mapBoth (recastPanic σ p) (recast σ p) :=
  writeEach_recast σ p k ws c.r { c with r := [] }

/-! ## The handshake -/

theorem handshake_recast (h : Handshake) (c : Conn) :
    (c.recast σ p).note (.handshake h (c.recast σ p).needResponse) =
      (c.note (.handshake h c.needResponse)).recast σ p :=
  note_recast σ p c (.handshake h c.needResponse)

theorem identify_recast (json : Json) (c : Conn) :
    (c.recast σ p).identify json = (c.identify json).mapBoth (recastPanic σ p) (recast σ p) := by
  unfold identify
  have hconfig : (c.recast σ p).config = c.config := rfl
  rw [hconfig, handshake_recast, writeCmd_recast]
  exact Except.mapBoth_bind fun _ => rfl

theorem auth_recast (secret : String) (c : Conn) :
    (c.recast σ p).auth secret = (c.auth secret).mapBoth (recastPanic σ p) (recast σ p) := by
  unfold auth
  rw [handshake_recast, writeCmd_recast]
  exact Except.mapBoth_bind fun _ => rfl

theorem subscribe_recast (topic channel : String) (c : Conn) :
    (c.recast σ p).subscribe topic channel =
      (c.subscribe topic channel).mapBoth (recastPanic σ p) (recast σ p) := by
  unfold subscribe
  rw [handshake_recast, writeCmd_recast]
  exact Except.mapBoth_bind fun _ => rfl

theorem rdy_recast (n : UInt32) (c : Conn) :
    (c.recast σ p).rdy n = (c.rdy n).mapBoth (recastPanic σ p) (recast σ p) := by
  unfold rdy
  rw [handshake_recast, writeCmd_recast]
  exact Except.mapBoth_bind fun _ => rfl

theorem getResponse_recast (c : Conn) :
    (c.recast σ p).getResponse =
      c.getResponse.mapBoth (recastPanic σ p) (Prod.map id (recast σ p)) := by
  unfold getResponse
  have hresponses : (c.recast σ p).responses = c.responses := rfl
  rw [hresponses]
  cases c.responses.getLast? with
  | none => rfl
  | some resp =>
    have hnote : (c.recast σ p).note (.response resp) = (c.note (.response resp)).recast σ p :=
      note_recast σ p c (.response resp)
    simp only [hnote, Except.mapBoth_ok]
    rfl

end Conn

namespace EventLoop

variable (σ : Stream → Stream) (p : Past) (json : Json) (client : Client) (k : Stream) (io : Io)

/-- The event loop with a past in front of that of its connection. -/
def since (r : EventLoop) : EventLoop := { r with conn := r.conn.since p }

/-- The event loop with a past in front of that of its connection, which was on other streams. -/
def recast (r : EventLoop) : EventLoop := { r with conn := r.conn.recast σ p }

/-- On the same streams there is only the past. -/
theorem recast_id : recast id p = since p := by
  funext r
  rw [recast, since, Conn.recast_id]

/-- The event loop without the past of its connection. -/
def forget (r : EventLoop) : EventLoop := { r with conn := r.conn.forget }

/-- An event loop is what it is without its past, with that past in front. -/
theorem since_forget (r : EventLoop) : r.forget.since r.conn.past = r := by
  simp [since, forget, Conn.since, Conn.forget, Conn.past]

/-- The change of a way to leave a batch that comes with it. -/
def recastLeave : Leave → Leave
  | .brk r => .brk (r.recast σ p)
  | .halt h r => .halt h (r.recast σ p)

/-! ## Calls of the methods of the connection -/

theorem call_recast (r : EventLoop) (x : Except (Panic × Conn) Conn) :
    (r.recast σ p).call (x.mapBoth (Conn.recastPanic σ p) (Conn.recast σ p)) =
      (r.call x).mapBoth (recastLeave σ p) (recast σ p) := by
  rcases x with ⟨q, c⟩ | c <;> rfl

theorem getResponse_recast (r : EventLoop) :
    (r.recast σ p).getResponse =
      r.getResponse.mapBoth (recastLeave σ p) (Prod.map id (recast σ p)) := by
  unfold getResponse
  have hconn : (r.recast σ p).conn = r.conn.recast σ p := rfl
  rw [hconn, Conn.getResponse_recast]
  rcases r.conn.getResponse with ⟨q, c⟩ | ⟨_ | resp, c⟩ <;> rfl

theorem write_recast (res : WriteResult) (r : EventLoop) :
    write (σ k) res (r.recast σ p) = (write k res r).recast σ p := by
  unfold write
  have hconn : (r.recast σ p).conn = r.conn.recast σ p := rfl
  rw [hconn, Conn.write_recast]
  rfl

theorem read_recast (r : EventLoop) :
    read (σ k) io (r.recast σ p) = (read k io r).mapBoth (recastLeave σ p) (recast σ p) := by
  unfold read
  have hconn : (r.recast σ p).conn = r.conn.recast σ p := rfl
  rw [hconn, Conn.read_recast]
  rcases r.conn.read k io.read with ⟨q, c⟩ | ⟨e | n, c⟩
  · rfl
  · simp only [Except.mapBoth_ok, Prod.map, id]
    split_ifs
    · rfl
    · have hnote : (c.recast σ p).note .disconnected = (c.note .disconnected).recast σ p :=
        c.note_recast σ p .disconnected
      rw [hnote]
      rfl
    · rfl
  · cases n <;> rfl

/-! ## The handlers -/

theorem authOrSubscribe_recast (r : EventLoop) :
    authOrSubscribe client (r.recast σ p) =
      (authOrSubscribe client r).mapBoth (recastLeave σ p) (recast σ p) := by
  unfold authOrSubscribe
  have hcfg : (r.recast σ p).nsqdConfig = r.nsqdConfig := rfl
  rw [hcfg]
  split_ifs <;> rfl

theorem plainResponse_recast (r : EventLoop) :
    plainResponse json client (r.recast σ p) =
      (plainResponse json client r).mapBoth (recastLeave σ p) (recast σ p) := by
  unfold plainResponse
  have hstate : (r.recast σ p).conn.state = r.conn.state := rfl
  rw [hstate]
  cases r.conn.state with
  | identify =>
    dsimp only
    rw [getResponse_recast]
    refine Except.mapBoth_bind fun a => ?_
    obtain ⟨resp, r'⟩ := a
    simp only [Prod.map, id]
    cases json.fromStr resp with
    | none => rfl
    | some cfg =>
      dsimp only
      split_ifs
      · simp only [Except.mapBoth_error, recastLeave, recast, Conn.tlsEnabled, Conn.note,
          Conn.recast, List.map_append, List.append_assoc]
        rfl
      · exact authOrSubscribe_recast σ p client { r' with
          nsqdConfig := cfg
          conn := { r'.conn with msgTimeout := cfg.msgTimeout } }
  | tls =>
    dsimp only
    rw [getResponse_recast]
    exact Except.mapBoth_bind fun a => authOrSubscribe_recast σ p client a.2
  | auth =>
    dsimp only
    rw [getResponse_recast]
    exact Except.mapBoth_bind fun _ => rfl
  | subscribe =>
    dsimp only
    rw [getResponse_recast]
    exact Except.mapBoth_bind fun _ => rfl
  | _ => rfl

theorem tlsResponse_recast (r : EventLoop) :
    tlsResponse client (r.recast σ p) =
      (tlsResponse client r).mapBoth (recastLeave σ p) (recast σ p) := by
  unfold tlsResponse
  have hstate : (r.recast σ p).conn.state = r.conn.state := rfl
  rw [hstate]
  cases r.conn.state with
  | tls =>
    dsimp only
    rw [getResponse_recast]
    exact Except.mapBoth_bind fun a => authOrSubscribe_recast σ p client a.2
  | auth =>
    dsimp only
    rw [getResponse_recast]
    exact Except.mapBoth_bind fun _ => rfl
  | subscribe =>
    dsimp only
    split_ifs
    · rfl
    · rw [getResponse_recast]
      exact Except.mapBoth_bind fun _ => rfl
  | _ => rfl

theorem plainCommand_recast (r : EventLoop) :
    plainCommand json client (r.recast σ p) =
      (plainCommand json client r).mapBoth (recastLeave σ p) (recast σ p) := by
  have hconn : (r.recast σ p).conn = r.conn.recast σ p := rfl
  have hstate : (r.conn.recast σ p).state = r.conn.state := rfl
  unfold plainCommand
  rw [hconn, hstate]
  cases r.conn.state with
  | identify =>
    dsimp only
    rw [Conn.identify_recast, call_recast]
  | auth =>
    cases client.secret with
    | none => rfl
    | some secret =>
      dsimp only
      rw [Conn.auth_recast, call_recast]
  | subscribe =>
    dsimp only
    rw [Conn.subscribe_recast, call_recast]
  | rdy =>
    dsimp only
    rw [Conn.rdy_recast, call_recast]
  | _ => rfl

theorem tlsCommand_recast (r : EventLoop) :
    tlsCommand client (r.recast σ p) =
      (tlsCommand client r).mapBoth (recastLeave σ p) (recast σ p) := by
  have hconn : (r.recast σ p).conn = r.conn.recast σ p := rfl
  have hstate : (r.conn.recast σ p).state = r.conn.state := rfl
  unfold tlsCommand
  rw [hconn, hstate]
  cases r.conn.state with
  | auth =>
    cases client.secret with
    | none => rfl
    | some secret =>
      dsimp only
      rw [Conn.auth_recast, call_recast]
  | subscribe =>
    dsimp only
    split_ifs
    · rfl
    · rw [Conn.subscribe_recast, call_recast]
  | rdy =>
    dsimp only
    rw [Conn.rdy_recast, call_recast]
  | _ => rfl

section Handlers

variable {σ p json client k io} {r : EventLoop}

theorem onReadable_recast
    (hresponse : ∀ r', read k io r = .ok r' → response json client (σ k) (r'.recast σ p) =
      (response json client k r').mapBoth (recastLeave σ p) (recast σ p)) :
    onReadable json client (σ k) io (r.recast σ p) =
      (onReadable json client k io r).mapBoth (recastLeave σ p) (recast σ p) := by
  unfold onReadable
  rw [read_recast]
  cases hread : read k io r with
  | error leave => rfl
  | ok r' =>
    have hstate : (r'.recast σ p).conn.state = r'.conn.state := rfl
    rw [Except.mapBoth_ok, Except.ok_bind, Except.ok_bind, hstate]
    split_ifs
    · rw [hresponse r' hread]
      cases response json client k r' <;> rfl
    · rfl

theorem onHandshake_recast
    (hcommand : command json client (σ k) (r.recast σ p) =
      (command json client k r).mapBoth (recastLeave σ p) (recast σ p)) :
    onHandshake json client (σ k) io (r.recast σ p) =
      (onHandshake json client k io r).mapBoth (recastLeave σ p) (recast σ p) := by
  unfold onHandshake
  rw [hcommand]
  refine Except.mapBoth_bind fun r' => ?_
  have hwrite := write_recast σ p k (io.writes 0) r'
  dsimp only
  rw [hwrite]
  rfl

end Handlers

theorem onHeartbeat_recast (r : EventLoop) :
    onHeartbeat (σ k) io (r.recast σ p) =
      (onHeartbeat k io r).mapBoth (recastLeave σ p) (recast σ p) := by
  unfold onHeartbeat
  have hbeat : (r.recast σ p).conn.heartbeat = r.conn.heartbeat := rfl
  rw [hbeat]
  split_ifs
  · have hconn : (r.recast σ p).conn = r.conn.recast σ p := rfl
    have hloop : ({ r.recast σ p with lastHeartbeat := (r.recast σ p).clock } : EventLoop) =
        recast σ p { r with lastHeartbeat := r.clock } := rfl
    have hnote : (r.conn.recast σ p).note .nop = (r.conn.note .nop).recast σ p :=
      r.conn.note_recast σ p .nop
    dsimp only
    rw [hloop, hconn, hnote, Conn.writeCmd_recast, call_recast]
    refine Except.mapBoth_bind fun r' => ?_
    rw [write_recast]
    rfl
  · rfl

theorem onStarted_recast (r : EventLoop) :
    onStarted (σ k) io (r.recast σ p) =
      (onStarted k io r).mapBoth (recastLeave σ p) (recast σ p) := by
  unfold onStarted
  rw [onHeartbeat_recast]
  refine Except.mapBoth_bind fun r' => ?_
  have hconn : (r'.recast σ p).conn = r'.conn.recast σ p := rfl
  rw [hconn, Conn.writeMessages_recast, call_recast]
  exact Except.mapBoth_bind fun _ => rfl

theorem onClose_recast (r : EventLoop) :
    onClose (σ k) (r.recast σ p) = (onClose k r).mapBoth (recastLeave σ p) (recast σ p) := by
  unfold onClose
  have hclose : (r.recast σ p).rClose = r.rClose := rfl
  rw [hclose]
  split_ifs
  · simp only [Except.mapBoth_error, recastLeave, recast, Conn.note, Conn.recast, List.map_append,
      List.append_assoc]
    rfl
  · rfl

/-- Another past and other streams pass through an event, if they pass through the two matches on
the state. -/
theorem onEvent_recast {r : EventLoop} {e : Event}
    (hresponse : e = ⟨.connection, .readable⟩ → ∀ r', read k io r = .ok r' →
      response json client (σ k) (r'.recast σ p) =
        (response json client k r').mapBoth (recastLeave σ p) (recast σ p))
    (hcommand : e = ⟨.connection, .writable⟩ → command json client (σ k) (r.recast σ p) =
      (command json client k r).mapBoth (recastLeave σ p) (recast σ p)) :
    onEvent json client (σ k) io e (r.recast σ p) =
      (onEvent json client k io e r).mapBoth (recastLeave σ p) (recast σ p) := by
  obtain ⟨token, readiness⟩ := e
  have hconn : (r.recast σ p).conn = r.conn.recast σ p := rfl
  unfold onEvent
  cases token with
  | cmd => exact onClose_recast σ p k r
  | client =>
    dsimp only
    rw [hconn, Conn.writeMessages_recast, call_recast]
  | connection =>
    cases readiness with
    | readable => exact onReadable_recast (hresponse rfl)
    | writable =>
      have hstate : (r.conn.recast σ p).state = r.conn.state := rfl
      dsimp only
      unfold onWritable
      rw [hconn, hstate]
      split_ifs
      · exact onHandshake_recast (hcommand rfl)
      · exact onStarted_recast σ p k io r

/-! ## Steps and runs -/

/-- A past in front passes through an event. -/
theorem onEvent_since (e : Event) (r : EventLoop) :
    onEvent json client k io e (r.since p) =
      (onEvent json client k io e r).mapBoth (recastLeave id p) (since p) := by
  rw [← recast_id]
  refine onEvent_recast id p json client k io (fun _ r' _ => ?_) (fun _ => ?_)
  · cases k with
    | plain => exact plainResponse_recast id p json client r'
    | tls => exact tlsResponse_recast id p client r'
  · cases k with
    | plain => exact plainCommand_recast id p json client r
    | tls => exact tlsCommand_recast id p client r

theorem after_since (next : List Event → Phase) (evts : List Event) (x : Except Leave EventLoop) :
    after next evts (x.mapBoth (recastLeave id p) (since p)) = (after next evts x).since p := by
  rw [← recast_id]
  rcases x with (r | ⟨h, r⟩) | r <;> rfl

theorem onPoll_since (now : ℕ) (r : EventLoop) :
    onPoll now (r.since p) = (onPoll now r).since p := by
  unfold onPoll
  have hbeat : (r.since p).lastHeartbeat = r.lastHeartbeat := rfl
  dsimp only
  rw [hbeat]
  split_ifs
  · simp only [since, Conn.since, List.append_assoc]
  · rfl

theorem onTls_since (answer : TlsAnswer) (r : EventLoop) :
    onTls answer (r.since p) = (onTls answer r).since p := by
  cases answer <;> rfl

/-- A past in front passes through a step. -/
theorem step_since (r : EventLoop) (l : Label) :
    step json client (r.since p) l = (step json client r l).map (since p) := by
  have hphase : (r.since p).phase = r.phase := rfl
  have htls : (r.since p).tls = r.tls := rfl
  cases l with
  | send cmd => rfl
  | close => rfl
  | poll evts now =>
    simp only [step, hphase, htls, onPoll_since]
    split
    · split_ifs <;> rfl
    · rfl
    · rfl
  | pollFailed =>
    simp only [step, hphase, htls]
    split
    · split_ifs <;> rfl
    · rfl
    · rfl
  | tls answer =>
    simp only [step, hphase, htls, onTls_since]
    split
    · split_ifs <;> rfl
    · split_ifs <;> rfl
    · rfl
  | event io =>
    simp only [step, hphase, onEvent_since, after_since]
    split <;> rfl

/-- A past in front passes through a run. -/
theorem run_since {r t : EventLoop} {ls : List Label} :
    Machine.Run (step json client) Machine.anything (r.since p) ls t ↔
      ∃ u, Machine.Run (step json client) Machine.anything r ls u ∧ t = u.since p :=
  Machine.run_map (step_since p json client)

end EventLoop

end NsqClient
