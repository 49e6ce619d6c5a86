import NsqClient.Conservation
import NsqClient.EventLoop
import NsqClient.History
import NsqClient.Writing

set_option relaxedAutoImplicit false
set_option autoImplicit false

/-!
# What a step can do

The outcomes of an event, each with the state it leaves.  Everything that is proved about the
event loop is proved by cases on them.

## Main definitions

* `NsqClient.Conn.Fed` — what a read that brings bytes does to a connection.
* `NsqClient.Conn.Flushed` — what `write_messages` does to a connection.
* `NsqClient.EventLoop.ReadOutcome`, `NsqClient.EventLoop.WriteOutcome`,
  `NsqClient.EventLoop.EventOutcome`, `NsqClient.EventLoop.StepOutcome` — the outcomes of a
  readable and of a writable connection, of an event, and of a step.
* `NsqClient.EventLoop.writing`, `NsqClient.EventLoop.reading`, `NsqClient.EventLoop.replying` — the
  steps of a socket that is ready, of which runs on given inputs are put together.
* `NsqClient.EventLoop.granted`, `NsqClient.EventLoop.serde` — replies to `IDENTIFY`, and how they
  are read.

## Main results

* `NsqClient.EventLoop.onReadable_outcome`, `NsqClient.EventLoop.onWritable_outcome`,
  `NsqClient.EventLoop.onEvent_outcome`, `NsqClient.EventLoop.step_outcome` — there are no others.
* `NsqClient.EventLoop.onEvent_writes` — an event only writes to the stream of its loop.
-/

namespace NsqClient

namespace Conn

/-! ## Reading -/

/-- A read on the stream `k` brought the bytes `bs`; with what was in the buffer before they are
the frames `fs`, all of them covered by the read, and what is in the buffer now, of which `decode`
takes no more; and the connection did with these frames what it owes to them. -/
structure Fed (k : Stream) (bs : List UInt8) (fs : List Frame) (c c' : Conn) : Prop where
  fits : c.config.outputBufferSize.toNat ≤ isizeMax
  ne_nil : bs ≠ []
  takes : Takes bs.length (c.receive k bs) fs c'
  stopped : decodePass bs.length c' = .ret c'

/-- The bytes a read brought, with those before. -/
theorem Fed.bytes {k : Stream} {bs : List UInt8} {fs : List Frame} {c c' : Conn}
    (h : Fed k bs fs c c') : c.rBuf ++ bs = wire fs ++ c'.rBuf := h.takes.bytes

/-- The frames are whole, but perhaps for the last one. -/
theorem Fed.parsed {k : Stream} {bs : List UInt8} {fs : List Frame} {c c' : Conn}
    (h : Fed k bs fs c c') : Parsed (c.storage 1) fs c'.rBuf := h.takes.parsed

theorem Fed.within {k : Stream} {bs : List UInt8} {fs : List Frame} {c c' : Conn}
    (h : Fed k bs fs c c') : ∀ f ∈ fs, f.Within bs.length := h.takes.within

theorem Fed.readable {k : Stream} {bs : List UInt8} {fs : List Frame} {c c' : Conn}
    (h : Fed k bs fs c c') : ∀ f ∈ fs, f.Readable := h.takes.readable

/-- What a read does to the connection. -/
theorem Fed.conn {k : Stream} {bs : List UInt8} {fs : List Frame} {c c' : Conn}
    (h : Fed k bs fs c c') :
    c' = { (c.receive k bs).emitAll fs with rBuf := c'.rBuf } := h.takes.conn

/-- What a read leaves alone. -/
theorem Fed.same {k : Stream} {bs : List UInt8} {fs : List Frame} {c c' : Conn}
    (h : Fed k bs fs c c') : c' = { c with
      rBuf := c'.rBuf
      storage := fun n => c.storage (n + 1)
      s := c'.s
      heartbeat := c'.heartbeat
      responses := c'.responses
      inFlight := c'.inFlight
      log := c.log ++ [.read k bs] } := by
  have hconn := h.conn
  rw [emitAll_eq] at hconn
  rw [hconn]
  rfl

theorem Fed.state {k : Stream} {bs : List UInt8} {fs : List Frame} {c c' : Conn}
    (h : Fed k bs fs c c') : c'.state = c.state := by
  rw [h.same]

theorem Fed.log {k : Stream} {bs : List UInt8} {fs : List Frame} {c c' : Conn}
    (h : Fed k bs fs c c') : c'.log = c.log ++ [.read k bs] := by
  rw [h.same]

/-- The responses after a read. -/
theorem Fed.responses {k : Stream} {bs : List UInt8} {fs : List Frame} {c c' : Conn}
    (h : Fed k bs fs c c') : c'.responses = c.responses ++ fs.filterMap reply? := by
  have hconn := h.conn
  rw [emitAll_eq] at hconn
  rw [hconn]
  rfl

/-- The heartbeat flag after a read. -/
theorem Fed.heartbeat {k : Stream} {bs : List UInt8} {fs : List Frame} {c c' : Conn}
    (h : Fed k bs fs c c') : c'.heartbeat = (c.heartbeat || fs.any Frame.isHeartbeat) := by
  have hconn := h.conn
  rw [emitAll_eq] at hconn
  rw [hconn]
  rfl

/-- Frames as `decode` takes them, that are there and covered, are taken. -/
theorem Fed.taken {k : Stream} {bs : List UInt8} {fs gs : List Frame} {rest : List UInt8}
    {c c' : Conn} (h : Fed k bs fs c c') (hbytes : c.rBuf ++ bs = wire gs ++ rest)
    (hgs : Parsed (c.storage 1) gs rest) (hwithin : ∀ g ∈ gs, g.Within bs.length) :
    ∃ hs, fs = gs ++ hs ∧ rest = wire hs ++ c'.rBuf := by
  have hstorage : c'.storage 0 = c.storage 1 := by rw [h.same]
  rw [← hstorage] at hgs
  exact frames_of_stopped h.stopped h.parsed hgs hwithin (hbytes.symm.trans h.bytes)

/-- In particular whole frames. -/
theorem Fed.frames {k : Stream} {bs : List UInt8} {fs gs : List Frame} {rest : List UInt8}
    {c c' : Conn} (h : Fed k bs fs c c') (hbytes : c.rBuf ++ bs = wire gs ++ rest)
    (hgs : ∀ g ∈ gs, g.Honest ∧ g.Within bs.length) :
    ∃ hs, fs = gs ++ hs ∧ rest = wire hs ++ c'.rBuf :=
  h.taken hbytes (.of_honest fun g hg => (hgs g hg).1) fun g hg => (hgs g hg).2

/-- `decode` does not touch the log. -/
theorem log_of_passes {size : ℕ} {c c' : Conn} (h : Loop.Passes (decodePass size) c c') :
    c'.log = c.log := by
  refine h.invariant (fun u => u.log = c.log) ?_ rfl
  intro u v hu hpass
  obtain ⟨f, rest, -, -, -, -, rfl⟩ := exists_frame_of_decodePass hpass
  rw [emit_eq]
  exact hu

/-- What `read` does when it returns a number. -/
theorem read_ok {k : Stream} {res : ReadResult} {c c' : Conn} {n : ℕ}
    (h : c.read k res = .ok (.ok n, c')) :
    (res = .ok [] ∧ n = 0 ∧ c' = c) ∨
      ∃ bs fs, res = .ok bs ∧ n = bs.length ∧ Fed k bs fs c c' := by
  unfold read readTcp at h
  split_ifs at h with hfits
  rcases res with e | _ | ⟨b, bs⟩
  · cases h
  · cases h
    exact .inl ⟨rfl, rfl, rfl⟩
  · refine .inr ⟨b :: bs, ?_⟩
    obtain ⟨u, hdec, h⟩ := Except.bind_eq_ok.mp h
    cases h
    have hdec : decode (b :: bs).length (c.receive k (b :: bs)) = .ok c' := hdec
    rcases decode_terminates (b :: bs).length (c.receive k (b :: bs)) with
      ⟨v, hp, hstop, hr⟩ | ⟨v, p, -, -, hr⟩
    · rw [hdec] at hr
      cases hr
      obtain ⟨fs, ht⟩ := exists_takes hp
      exact ⟨fs, rfl, rfl, Nat.le_of_not_lt hfits, List.cons_ne_nil b bs, ht, hstop⟩
    · rw [hdec] at hr
      cases hr

/-- What `read` does when it returns an error. -/
theorem read_error {k : Stream} {res : ReadResult} {c c' : Conn} {e : ErrorKind}
    (h : c.read k res = .ok (.error e, c')) : res = .error e ∧ c' = c := by
  unfold read readTcp at h
  split_ifs at h
  rcases res with e' | _ | ⟨b, bs⟩
  · cases h
    exact ⟨rfl, rfl⟩
  · cases h
  · obtain ⟨u, -, h⟩ := Except.bind_eq_ok.mp h
    cases h

/-- The bytes a read brings. -/
def readBytes : ReadResult → List UInt8
  | .ok bs => bs
  | .error _ => []

/-- What a read that brings bytes forwards. -/
theorem Fed.forwards {k : Stream} {bs : List UInt8} {fs : List Frame} {c c' : Conn}
    (h : Fed k bs fs c c') : Forwards bs c c' := by
  have hconn := h.conn
  rw [emitAll_eq] at hconn
  refine ⟨fs, c'.rBuf, h.bytes, h.parsed, fun f hf => ⟨h.readable f hf, h.within f hf⟩, ?_⟩
  rw [hconn]
  rfl

/-- What `read` does when it panics: at most the bytes read are logged, and at most messages
forwarded. -/
theorem read_panic {k : Stream} {res : ReadResult} {c c' : Conn} {p : Panic}
    (h : c.read k res = .error (p, c')) :
    p ≠ .noResponse ∧ Since (fun o => ∃ bs, o = .read k bs) c.log c'.log ∧
      Forwards (readBytes res) c c' := by
  unfold read readTcp at h
  split_ifs at h
  · cases h
    exact ⟨nofun, .refl _ _, .nothing rfl⟩
  · rcases res with e' | _ | ⟨b, bs⟩
    · cases h
    · cases h
    · rcases Except.bind_eq_error.mp h with hdec | ⟨u, -, h⟩
      · have hdec : decode (b :: bs).length (c.receive k (b :: bs)) = .error (p, c') := hdec
        rcases decode_terminates (b :: bs).length (c.receive k (b :: bs)) with
          ⟨v, -, -, hr⟩ | ⟨v, q, hp, hv, hr⟩
        · rw [hdec] at hr
          cases hr
        · rw [hdec] at hr
          cases hr
          obtain ⟨hpanic, hc'⟩ := eq_of_decodePass_fail hv
          refine ⟨?_, ?_, sent_of_decode (.inr ⟨_, hdec⟩)⟩
          · rcases hpanic with rfl | rfl | rfl <;> exact nofun
          · rw [hc', log_of_passes hp]
            exact .snoc ⟨b :: bs, rfl⟩
      · cases h

/-! ## Writing -/

/-- The panics of the encoder come from the multiple publish. -/
theorem panic_of_encodeCmd {buf : BytesMut} {msg : Cmd} {p : Panic}
    (h : encodeCmd buf msg = .error p) : p = .capacityOverflow ∨ p = .bufferOverflow := by
  have hput : ∀ {buf : BytesMut} {src : List UInt8} {p : Panic},
      buf.putSlice src = .error p → p = .bufferOverflow := by
    intro buf src p h
    unfold BytesMut.putSlice at h
    split_ifs at h
    cases h
    rfl
  obtain ⟨buf₁, hline, -⟩ := writeCmd_eq buf msg.cmd
  unfold encodeCmd at h
  rw [hline] at h
  rcases hmsg : msg.msg with _ | ⟨m, _ | ⟨m', ms⟩⟩
  · rw [hmsg] at h
    cases h
  · obtain ⟨buf₂, hbody, -⟩ := writeMsg_eq buf₁ m
    rw [hmsg] at h
    have h : writeMsg buf₁ m = .error p := h
    rw [hbody] at h
    cases h
  · rw [hmsg] at h
    have h : writeMmsg buf₁ (m :: m' :: ms) = .error p := h
    unfold writeMmsg at h
    simp only at h
    split_ifs at h
    · cases h
      exact .inl rfl
    · rcases Except.bind_eq_error.mp h with h | ⟨buf₂, -, h⟩
      · exact .inr (hput h)
      · rcases Except.bind_eq_error.mp h with h | ⟨buf₃, -, h⟩
        · exact .inr (hput h)
        · obtain ⟨buf₄, hwrites, -⟩ := foldlM_writeMsg_eq buf₃ (m :: m' :: ms)
          rw [hwrites] at h
          cases h

/-- The commands `cmds` were written to the stream `k`: what is logged is these commands, each of
them in the state the connection is in, and writes on that stream. -/
structure Flushed (k : Stream) (cmds : List Cmd) (c c' : Conn) : Prop where
  conn : c' = { c with
    wBuf := c'.wBuf
    inFlight := c'.inFlight
    processed := c'.processed
    log := c'.log }
  log : Since (fun o => (∃ cmd ∈ cmds, o = .user c.state cmd) ∨
    ∃ offered res, o = .wrote k offered res) c.log c'.log
  user : ∀ cmd ∈ cmds, .user c.state cmd ∈ c'.log
  nil : cmds = [] → c' = c

/-- Writing no command does nothing. -/
theorem Flushed.refl (k : Stream) (c : Conn) : Flushed k [] c c :=
  ⟨rfl, .refl _ _, nofun, fun _ => rfl⟩

/-- Writing one command, and then others. -/
theorem Flushed.cons {k : Stream} {cmd : Cmd} {cmds : List Cmd} {c c₁ c₂ : Conn}
    (h₁ : Flushed k [cmd] c c₁) (h₂ : Flushed k cmds c₁ c₂) : Flushed k (cmd :: cmds) c c₂ where
  conn := by
    rw [h₂.conn, h₁.conn]
  log := by
    have hstate : c₁.state = c.state := by rw [h₁.conn]
    refine (h₁.log.mono ?_).trans (h₂.log.mono ?_)
    · rintro o (⟨cmd', hcmd', rfl⟩ | hwrote)
      · rw [List.mem_singleton.mp hcmd']
        exact .inl ⟨cmd, List.mem_cons_self, rfl⟩
      · exact .inr hwrote
    · rintro o (⟨cmd', hcmd', rfl⟩ | hwrote)
      · rw [hstate]
        exact .inl ⟨cmd', List.mem_cons_of_mem cmd hcmd', rfl⟩
      · exact .inr hwrote
  user := by
    intro cmd' hcmd'
    rcases List.mem_cons.mp hcmd' with rfl | hcmd'
    · obtain ⟨tail, hlog, -⟩ := h₂.log
      rw [hlog]
      exact List.mem_append_left tail (h₁.user _ (List.mem_singleton_self _))
    · have hstate : c₁.state = c.state := by rw [h₁.conn]
      rw [← hstate]
      exact h₂.user cmd' hcmd'
  nil := nofun

/-- One pass of the loop in `write_messages`. -/
theorem flushed_of_writeMessage {k : Stream} {res : WriteResult} {cmd : Cmd} {c c' : Conn}
    (h : writeMessage k res c cmd = .ok c') : Flushed k [cmd] c c' := by
  obtain ⟨c₁, hwrite, h⟩ := Except.bind_eq_ok.mp h
  obtain ⟨-, hc₁⟩ := wBuf_of_writeCmd hwrite
  rw [write, writeTcp_eq] at h
  cases h
  refine ⟨by rw [hc₁]; rfl, ⟨[.user c.state cmd, .wrote k c₁.wBuf.bytes res], ?_, ?_⟩, ?_, nofun⟩
  · rw [hc₁]
    simp [note]
  · intro o ho
    rcases List.mem_pair.mp ho with rfl | rfl
    · exact .inl ⟨cmd, List.mem_singleton_self cmd, rfl⟩
    · exact .inr ⟨_, _, rfl⟩
  · intro cmd' hcmd'
    rw [List.mem_singleton.mp hcmd', hc₁]
    simp [note]

/-- One pass of the loop in `write_messages` that panics: the command was taken, and not
written. -/
theorem flushed_of_writeMessage_error {k : Stream} {res : WriteResult} {cmd : Cmd} {c c' : Conn}
    {p : Panic} (h : writeMessage k res c cmd = .error (p, c')) :
    p ≠ .noResponse ∧ Flushed k [cmd] c c' := by
  rcases Except.bind_eq_error.mp h with h | ⟨c₁, -, h⟩
  · unfold Conn.writeCmd at h
    cases henc : encodeCmd (c.note (.user c.state cmd)).wBuf cmd with
    | ok buf =>
      rw [henc] at h
      cases h
    | error q =>
      rw [henc] at h
      cases h
      refine ⟨?_, rfl, ⟨[.user c.state cmd], rfl, ?_⟩, ?_, nofun⟩
      · rcases panic_of_encodeCmd henc with rfl | rfl <;> exact nofun
      · intro o ho
        rw [List.mem_singleton.mp ho]
        exact .inl ⟨cmd, List.mem_singleton_self cmd, rfl⟩
      · intro cmd' hcmd'
        rw [List.mem_singleton.mp hcmd']
        exact List.mem_append_right c.log (List.mem_singleton_self _)
  · cases h

/-- The loop of `write_messages` writes the commands it is given. -/
theorem flushed_of_writeEach {k : Stream} {ws : ℕ → WriteResult} {cmds : List Cmd} {c c' : Conn}
    (h : writeEach k ws cmds c = .ok c') : Flushed k cmds c c' := by
  induction cmds generalizing ws c with
  | nil =>
    cases h
    exact .refl k _
  | cons cmd cmds ih =>
    obtain ⟨c₁, hone, hrest⟩ := Except.bind_eq_ok.mp h
    exact (flushed_of_writeMessage hone).cons (ih hrest)

/-- If the loop of `write_messages` panics, it wrote commands it was given. -/
theorem flushed_of_writeEach_error {k : Stream} {ws : ℕ → WriteResult} {cmds : List Cmd}
    {c c' : Conn} {p : Panic} (h : writeEach k ws cmds c = .error (p, c')) :
    p ≠ .noResponse ∧ ∃ written, written ≠ [] ∧ written ⊆ cmds ∧ Flushed k written c c' := by
  induction cmds generalizing ws c with
  | nil => cases h
  | cons cmd cmds ih =>
    rcases Except.bind_eq_error.mp h with hone | ⟨c₁, hone, hrest⟩
    · obtain ⟨hp, hflushed⟩ := flushed_of_writeMessage_error hone
      exact ⟨hp, [cmd], List.cons_ne_nil _ _, by simp, hflushed⟩
    · obtain ⟨hp, written, -, hsub, hflushed⟩ := ih hrest
      refine ⟨hp, cmd :: written, List.cons_ne_nil _ _, ?_,
        (flushed_of_writeMessage hone).cons hflushed⟩
      exact List.cons_subset_cons cmd hsub

/-- The handshake commands and the answer to a heartbeat, as `write_cmd` leaves the connection:
it never fails on a command with at most one body. -/
theorem writeCmd_eq_ok (c : Conn) {msg : Cmd} (h : msg.msg.length ≤ 1) :
    ∃ buf, c.writeCmd msg = .ok { c with wBuf := buf } ∧
      buf.bytes = c.wBuf.bytes ++ cmdBytes msg := by
  obtain ⟨buf, hbuf⟩ := encodeCmd_ok c.wBuf h
  refine ⟨buf, ?_, bytes_of_encodeCmd hbuf⟩
  unfold Conn.writeCmd
  rw [hbuf]

end Conn

/-- What a run of `write_messages` logs is inert. -/
theorem inert_of_flushed {k : Stream} {cmds : List Cmd} {c c' : Conn}
    (h : Conn.Flushed k cmds c c') : Since Inert c.log c'.log := by
  refine h.log.mono ?_
  rintro o (⟨cmd, -, rfl⟩ | ⟨offered, res, rfl⟩) <;> exact ⟨nofun, nofun⟩

namespace EventLoop

variable {json : Json} {client : Client} {k : Stream} {io : Io}

/-! ## What a readable connection can do -/

/-- Whether `get_response` is called after a read in a state. -/
def awaits (client : Client) (k : Stream) : State → Bool
  | .identify => k = .plain
  | .tls => true
  | .auth => true
  | .subscribe => k = .plain || !client.isProducer
  | _ => false

/-- The state after a response that leaves the choice between `AUTH` and `SUB`. -/
def AuthChoice (client : Client) (nsqdConfig : NsqdConfig) (st : State) : Prop :=
  (nsqdConfig.authRequired = true ∧ client.secret.isSome = true ∧ st = .auth) ∨
    (nsqdConfig.authRequired = false ∧ st = .subscribe)

/-- A response `resp` leads from a state and a server configuration to others. -/
inductive Answered (json : Json) (client : Client) :
    Stream → State → NsqdConfig → String → NsqdConfig → State → Prop where
  | identify {cfg cfg' : NsqdConfig} {resp : String} {st : State} :
      json.fromStr resp = some cfg' → cfg'.tlsV1 = false → AuthChoice client cfg' st →
      Answered json client .plain .identify cfg resp cfg' st
  | tls {k : Stream} {cfg : NsqdConfig} {resp : String} {st : State} :
      AuthChoice client cfg st → Answered json client k .tls cfg resp cfg st
  | auth {k : Stream} {cfg : NsqdConfig} {resp : String} :
      Answered json client k .auth cfg resp cfg .subscribe
  | subscribe {k : Stream} {cfg : NsqdConfig} {resp : String} :
      (k = .tls → client.isProducer = false) →
      Answered json client k .subscribe cfg resp cfg .rdy

/-- The outcomes of a readable connection. -/
inductive ReadOutcome (json : Json) (client : Client) (k : Stream) (io : Io) (r : EventLoop) :
    Except Leave EventLoop → Prop where
  /-- A panic in the read. -/
  | panicked {p : Panic} {c : Conn} :
      p ≠ .noResponse → Since (fun o => ∃ bs, o = .read k bs) r.conn.log c.log →
      Conn.Forwards (Conn.readBytes io.read) r.conn c →
      ReadOutcome json client k io r (.error (.halt (.panicked p) { r with conn := c }))
  /-- A response with which `run` ends. -/
  | refused {bs : List UInt8} {fs : List Frame} {c : Conn} {rs : List Response}
      {resp : Response} {h : Halt} {r' : EventLoop} :
      io.read = .ok bs → Conn.Fed k bs fs r.conn c → c.responses = rs ++ [resp] →
      ((∃ p, h = .panicked p ∧ p ≠ .noResponse) ∨ h = .exited) →
      r' = { r with
        nsqdConfig := r'.nsqdConfig
        conn := { c with
          responses := rs
          msgTimeout := r'.conn.msgTimeout
          log := c.log ++ [.response resp] } } →
      ReadOutcome json client k io r (.error (.halt h r'))
  /-- A missing response. -/
  | noResponse {bs : List UInt8} {fs : List Frame} {c : Conn} :
      io.read = .ok bs → Conn.Fed k bs fs r.conn c → awaits client k r.conn.state = true →
      c.responses = [] →
      ReadOutcome json client k io r (.error (.halt (.panicked .noResponse) { r with conn := c }))
  /-- The end of the file. -/
  | eof :
      io.read = .ok [] →
      ReadOutcome json client k io r (.error (.brk { r with
        interest := if r.conn.needResponse then .readable else r.interest }))
  /-- Nothing to read. -/
  | wouldBlock :
      io.read = .error .wouldBlock →
      ReadOutcome json client k io r (.error (.brk { r with conn := r.conn.note .disconnected }))
  /-- Bytes, after the handshake. -/
  | started {bs : List UInt8} {fs : List Frame} {c : Conn} :
      io.read = .ok bs → Conn.Fed k bs fs r.conn c → r.conn.state = .started →
      ReadOutcome json client k io r (.ok { r with conn := c, interest := .writable })
  /-- Bytes in a state in which no response is due. -/
  | unasked {bs : List UInt8} {fs : List Frame} {c : Conn} :
      io.read = .ok bs → Conn.Fed k bs fs r.conn c → awaits client k r.conn.state = false →
      r.conn.state ≠ .started → r.conn.state ≠ .subscribe →
      ReadOutcome json client k io r (.ok { r with
        conn := { c with needResponse := false }
        interest := .writable })
  /-- Bytes before the subscription of a producer, in the TLS loop. -/
  | producer {bs : List UInt8} {fs : List Frame} {c : Conn} :
      io.read = .ok bs → Conn.Fed k bs fs r.conn c → k = .tls → r.conn.state = .subscribe →
      client.isProducer = true →
      ReadOutcome json client k io r (.ok { r with
        conn := { c with state := .started, needResponse := false }
        interest := .writable })
  /-- The response that switches to TLS. -/
  | tlsSwitch {bs : List UInt8} {fs : List Frame} {c : Conn} {rs : List Response} {resp : String}
      {cfg : NsqdConfig} :
      io.read = .ok bs → Conn.Fed k bs fs r.conn c → k = .plain → r.conn.state = .identify →
      c.responses = rs ++ [.response resp] → json.fromStr resp = some cfg → cfg.tlsV1 = true →
      ReadOutcome json client k io r (.error (.brk { r with
        nsqdConfig := cfg
        tls := 1
        conn := { c with
          responses := rs
          msgTimeout := cfg.msgTimeout
          state := .tls
          log := c.log ++ [.response (.response resp), .tlsEnabled] } }))
  /-- A response that leads on. -/
  | answered {bs : List UInt8} {fs : List Frame} {c : Conn} {rs : List Response} {resp : String}
      {cfg : NsqdConfig} {st : State} :
      io.read = .ok bs → Conn.Fed k bs fs r.conn c → c.responses = rs ++ [.response resp] →
      Answered json client k r.conn.state r.nsqdConfig resp cfg st →
      ReadOutcome json client k io r (.ok { r with
        nsqdConfig := cfg
        conn := { c with
          responses := rs
          msgTimeout := if r.conn.state = .identify then cfg.msgTimeout else c.msgTimeout
          state := st
          needResponse := false
          log := c.log ++ [.response (.response resp)] }
        interest := .writable })

/-- `get_response` without a response. -/
theorem getResponse_nil {r : EventLoop} (h : r.conn.responses = []) :
    r.getResponse = .error (.halt (.panicked .noResponse) r) := by
  simp [getResponse, Conn.getResponse, h]

/-- `get_response` with an error as the newest response. -/
theorem getResponse_error {r : EventLoop} {rs : List Response} {e : String}
    (h : r.conn.responses = rs ++ [.error e]) :
    r.getResponse = .error (.halt (.panicked .errorResponse) { r with
      conn := { r.conn.note (.response (.error e)) with responses := rs } }) := by
  simp [getResponse, Conn.getResponse, Conn.response, h]

/-- `run` after the response `resp` was taken, with `rs` left. -/
def answer (r : EventLoop) (rs : List Response) (resp : String) : EventLoop :=
  { r with conn := { r.conn.note (.response (.response resp)) with responses := rs } }

/-- `get_response` with a text as the newest response. -/
theorem getResponse_response {r : EventLoop} {rs : List Response} {resp : String}
    (h : r.conn.responses = rs ++ [.response resp]) :
    r.getResponse = .ok (resp, answer r rs resp) := by
  simp [getResponse, Conn.getResponse, Conn.response, h, answer]

/-- The choice between `AUTH` and `SUB`: the process exits without a secret, or the state is
set. -/
theorem authOrSubscribe_cases (client : Client) (r : EventLoop) :
    authOrSubscribe client r = .error (.halt .exited r) ∨
      ∃ st, AuthChoice client r.nsqdConfig st ∧ authOrSubscribe client r = .ok (r.setState st) := by
  unfold authOrSubscribe
  by_cases hauth : r.nsqdConfig.authRequired = true
  · rw [if_pos hauth]
    cases hsecret : client.secret with
    | none => exact .inl (if_pos rfl)
    | some secret => exact .inr ⟨.auth, .inl ⟨hauth, by rw [hsecret]; rfl, rfl⟩, if_neg (by simp)⟩
  · rw [if_neg hauth]
    exact .inr ⟨.subscribe, .inr ⟨by simpa using hauth, rfl⟩, rfl⟩

/-- What is left of `onReadable` after a read that brought bytes. -/
def afterRead (json : Json) (client : Client) (k : Stream) (r : EventLoop) :
    Except Leave EventLoop := do
  let r ←
    if r.conn.state ≠ .started then do
      let r ← response json client k r
      pure { r with conn := { r.conn with needResponse := false } }
    else pure r
  pure { r with interest := .writable }

/-- A readable connection is read, and then the bytes are looked at. -/
theorem onReadable_eq (r : EventLoop) :
    onReadable json client k io r = read k io r >>= afterRead json client k := rfl

/-- The outcomes of the match on `conn.read(..)`. -/
theorem read_outcome (json : Json) (client : Client) (r : EventLoop) :
    (∃ x, read k io r = .error x ∧ ReadOutcome json client k io r (.error x)) ∨
      ∃ bs fs c, read k io r = .ok { r with conn := c } ∧ io.read = .ok bs ∧
        Conn.Fed k bs fs r.conn c := by
  unfold read
  rcases hread : r.conn.read k io.read with ⟨p, c⟩ | ⟨e | n, c⟩
  · obtain ⟨hp, hlog, hforwards⟩ := Conn.read_panic hread
    exact .inl ⟨_, rfl, .panicked hp hlog hforwards⟩
  · obtain ⟨hres, rfl⟩ := Conn.read_error hread
    simp only
    cases e with
    | wouldBlock =>
      cases hopen : io.infoOpen with
      | true => exact .inl ⟨_, rfl, .wouldBlock hres⟩
      | false =>
        exact .inl ⟨_, rfl, .panicked nofun (.refl _ _) (.nothing rfl)⟩
    | other => exact .inl ⟨_, rfl, .panicked nofun (.refl _ _) (.nothing rfl)⟩
  · rcases Conn.read_ok hread with ⟨hres, rfl, rfl⟩ | ⟨bs, fs, hres, rfl, hfed⟩
    · exact .inl ⟨_, rfl, .eof hres⟩
    · cases bs with
      | nil => exact absurd rfl hfed.ne_nil
      | cons b bs => exact .inr ⟨b :: bs, fs, c, rfl, hres, hfed⟩

/-- What is done with a response, by the state. -/
def onResponse (json : Json) (client : Client) (st : State) (x : String × EventLoop) :
    Except Leave EventLoop :=
  match st with
  | .identify =>
    match json.fromStr x.1 with
    | none => .error (.halt (.panicked .badIdentify) x.2)
    | some nsqdConfig =>
      let r := { x.2 with
        nsqdConfig := nsqdConfig
        conn := { x.2.conn with msgTimeout := nsqdConfig.msgTimeout } }
      if nsqdConfig.tlsV1 then .error (.brk { r with tls := 1, conn := r.conn.tlsEnabled })
      else authOrSubscribe client r
  | .tls => authOrSubscribe client x.2
  | .auth => .ok (x.2.setState .subscribe)
  | _ => .ok (x.2.setState .rdy)

/-- The match on the state after a read: in the states in which a response is due it is taken and
looked at; a producer is done with the handshake in the TLS loop; and nothing happens
otherwise. -/
theorem response_eq (r : EventLoop) : response json client k r =
    if awaits client k r.conn.state then r.getResponse >>= onResponse json client r.conn.state
    else if r.conn.state = .subscribe then .ok (r.setState .started)
    else .ok r := by
  cases k with
  | plain => cases hst : r.conn.state <;> simp [response, plainResponse, awaits, hst] <;> rfl
  | tls =>
    cases hst : r.conn.state
    case subscribe =>
      cases hp : client.isProducer <;> simp [response, tlsResponse, awaits, hst, hp] <;> rfl
    all_goals
      simp [response, tlsResponse, awaits, hst]
      rfl

/-- The outcomes of looking at a response. -/
theorem onResponse_outcome {r : EventLoop} {bs : List UInt8} {fs : List Frame} {c : Conn}
    {rs : List Response} {resp : String} (hres : io.read = .ok bs)
    (hfed : Conn.Fed k bs fs r.conn c) (hrs : c.responses = rs ++ [.response resp])
    (hawaits : awaits client k r.conn.state = true) :
    ReadOutcome json client k io r (do
      let r ← onResponse json client r.conn.state
        (resp, answer { r with conn := c } rs resp)
      pure { r with conn := { r.conn with needResponse := false }, interest := .writable }) := by
  cases hst : r.conn.state with
  | identify =>
    have hk : k = .plain := by simpa [awaits, hst] using hawaits
    subst hk
    simp only [onResponse]
    cases hjson : json.fromStr resp with
    | none => exact .refused hres hfed hrs (.inl ⟨.badIdentify, rfl, nofun⟩) rfl
    | some cfg =>
      simp only
      cases htls : cfg.tlsV1 with
      | true =>
        have h : ReadOutcome json client .plain io r _ :=
          .tlsSwitch hres hfed rfl hst hrs hjson htls
        simpa [Conn.tlsEnabled, Conn.note, answer] using h
      | false =>
        simp only [Bool.false_eq_true, if_false]
        rcases authOrSubscribe_cases client _ with hexit | ⟨st, hchoice, hok⟩
        · rw [hexit]
          exact .refused hres hfed hrs (.inr rfl) rfl
        · have hnext : Answered json client .plain r.conn.state r.nsqdConfig resp cfg st := by
            rw [hst]
            exact .identify hjson htls hchoice
          have h : ReadOutcome json client .plain io r _ := .answered hres hfed hrs hnext
          rw [hok]
          simpa [hst, answer, setState, Conn.note] using h
  | tls =>
    simp only [onResponse]
    rcases authOrSubscribe_cases client (answer { r with conn := c } rs resp) with
      hexit | ⟨st, hchoice, hok⟩
    · rw [hexit]
      exact .refused hres hfed hrs (.inr rfl) rfl
    · have hnext : Answered json client k r.conn.state r.nsqdConfig resp r.nsqdConfig st := by
        rw [hst]
        exact .tls hchoice
      have h : ReadOutcome json client k io r _ := .answered hres hfed hrs hnext
      rw [hok]
      simpa [hst, answer, setState, Conn.note] using h
  | auth =>
    have hnext : Answered json client k r.conn.state r.nsqdConfig resp r.nsqdConfig
        .subscribe := by
      rw [hst]
      exact .auth
    have h : ReadOutcome json client k io r _ := .answered hres hfed hrs hnext
    simpa [hst, onResponse, answer, setState, Conn.note] using h
  | subscribe =>
    have hsub : k = .tls → client.isProducer = false := by
      rintro rfl
      simpa [awaits, hst] using hawaits
    have hnext : Answered json client k r.conn.state r.nsqdConfig resp r.nsqdConfig .rdy := by
      rw [hst]
      exact .subscribe hsub
    have h : ReadOutcome json client k io r _ := .answered hres hfed hrs hnext
    simpa [hst, onResponse, answer, setState, Conn.note] using h
  | _ => simp [awaits, hst] at hawaits

/-- The outcomes of what is left after a read that brought bytes. -/
theorem afterRead_outcome {r : EventLoop} {bs : List UInt8} {fs : List Frame} {c : Conn}
    (hres : io.read = .ok bs) (hfed : Conn.Fed k bs fs r.conn c) :
    ReadOutcome json client k io r (afterRead json client k { r with conn := c }) := by
  have hstate := hfed.state
  unfold afterRead
  by_cases hstarted : r.conn.state = .started
  · simp only [hstate, hstarted, ne_eq, not_true_eq_false, if_false]
    exact .started hres hfed hstarted
  · simp only [hstate, ne_eq, hstarted, not_false_eq_true, if_true, response_eq]
    cases hawaits : awaits client k r.conn.state with
    | true =>
      simp only [if_true]
      rcases List.eq_nil_or_concat c.responses with hnil | ⟨rs, resp, hrs⟩
      · have hnil' : ({ r with conn := c } : EventLoop).conn.responses = [] := hnil
        rw [getResponse_nil hnil']
        exact .noResponse hres hfed hawaits hnil
      · rw [List.concat_eq_append] at hrs
        cases resp with
        | error e =>
          have hrs' : ({ r with conn := c } : EventLoop).conn.responses = rs ++ [.error e] := hrs
          rw [getResponse_error hrs']
          exact .refused hres hfed hrs (.inl ⟨.errorResponse, rfl, nofun⟩) rfl
        | response resp =>
          have hrs' : ({ r with conn := c } : EventLoop).conn.responses =
              rs ++ [.response resp] := hrs
          rw [getResponse_response hrs']
          have h : ReadOutcome json client k io r _ := onResponse_outcome hres hfed hrs hawaits
          rw [Except.ok_bind]
          cases honResponse : onResponse json client r.conn.state
              (resp, answer { r with conn := c } rs resp) with
          | error x =>
            rw [honResponse] at h
            exact h
          | ok r' =>
            rw [honResponse] at h
            exact h
    | false =>
      simp only [Bool.false_eq_true, if_false]
      by_cases hsub : r.conn.state = .subscribe
      · have hk : k = .tls ∧ client.isProducer = true := by
          cases k with
          | plain => simp [awaits, hsub] at hawaits
          | tls => simpa [awaits, hsub] using hawaits
        rw [if_pos hsub]
        have h : ReadOutcome json client k io r _ := .producer hres hfed hk.1 hsub hk.2
        exact h
      · rw [if_neg hsub]
        exact .unasked hres hfed hawaits hstarted hsub

/-- A readable connection has no other outcomes. -/
theorem onReadable_outcome (json : Json) (client : Client) (k : Stream) (io : Io)
    (r : EventLoop) : ReadOutcome json client k io r (onReadable json client k io r) := by
  rw [onReadable_eq]
  rcases read_outcome json client r with
    ⟨x, hread, hx⟩ | ⟨bs, fs, c, hread, hres, hfed⟩
  · rw [hread]
    exact hx
  · rw [hread]
    exact afterRead_outcome hres hfed

/-! ## What a writable connection can do -/

/-- In the given state a handshake command is written, which leads to a state in which a response
is due or not. -/
inductive Sends (json : Json) (client : Client) (config : Config) :
    Stream → State → Handshake → NsqCmd → State → Bool → Prop where
  | identify :
      Sends json client config .plain .identify .identify (.identify (json.toString config))
        .identify true
  | auth {k : Stream} {secret : String} :
      client.secret = some secret →
      Sends json client config k .auth .auth (.auth secret) .auth true
  | subscribe {k : Stream} :
      (k = .tls → client.isProducer = false) →
      Sends json client config k .subscribe .subscribe (.subscribe client.topic client.channel)
        .subscribe true
  | rdy {k : Stream} :
      Sends json client config k .rdy .rdy (.rdy client.rdy) .started false

/-- In the given state no command is written; the state becomes another one only for a producer in
the TLS loop. -/
inductive Mute (client : Client) : Stream → State → State → Prop where
  | start {k : Stream} : Mute client k .start .start
  | identify : Mute client .tls .identify .identify
  | tlsNegotiating {k : Stream} : Mute client k .tlsNegotiating .tlsNegotiating
  | tls {k : Stream} : Mute client k .tls .tls
  | auth {k : Stream} : client.secret = none → Mute client k .auth .auth
  | producer : client.isProducer = true → Mute client .tls .subscribe .started

/-- The answer to a heartbeat, if there was one. -/
inductive Beat (k : Stream) (io : Io) (r : EventLoop) : EventLoop → Prop where
  | quiet : r.conn.heartbeat = false → Beat k io r r
  | nop {buf : BytesMut} :
      r.conn.heartbeat = true → buf.bytes = r.conn.wBuf.bytes ++ cmdBytes NsqCmd.nop.asCmd →
      Beat k io r { r with
        lastHeartbeat := r.clock
        conn := { r.conn with
          wBuf := buf.clear
          heartbeat := false
          log := r.conn.log ++ [.nop, .wrote k buf.bytes (io.writes 0)] } }

/-- What the answer to a heartbeat leaves in the log. -/
theorem Beat.log {r r' : EventLoop} (h : Beat k io r r') :
    Since (fun o => o = .nop ∨ ∃ offered res, o = .wrote k offered res) r.conn.log
      r'.conn.log := by
  cases h with
  | quiet _ => exact .refl _ _
  | nop _ _ => exact .append (by simp)

/-- What the answer to a heartbeat leaves alone. -/
theorem Beat.same {r r' : EventLoop} (h : Beat k io r r') :
    r' = { r with
      lastHeartbeat := r'.lastHeartbeat
      conn := { r.conn with
        wBuf := r'.conn.wBuf
        heartbeat := r'.conn.heartbeat
        log := r'.conn.log } } := by
  cases h <;> rfl

/-- The outcomes of a connection that is not readable. -/
inductive WriteOutcome (json : Json) (client : Client) (k : Stream) (io : Io) (r : EventLoop) :
    Except Leave EventLoop → Prop where
  /-- A handshake command. -/
  | command {h : Handshake} {cmd : NsqCmd} {st : State} {need : Bool} {buf : BytesMut} :
      Sends json client r.conn.config k r.conn.state h cmd st need →
      buf.bytes = r.conn.wBuf.bytes ++ cmdBytes cmd.asCmd →
      WriteOutcome json client k io r (.ok { r with
        conn := { r.conn with
          wBuf := buf.clear
          needResponse := need
          state := st
          log := r.conn.log ++
            [.handshake h r.conn.needResponse, .wrote k buf.bytes (io.writes 0)] }
        interest := if need then .readable else .writable })
  /-- No command. -/
  | mute {st : State} :
      Mute client k r.conn.state st →
      WriteOutcome json client k io r (.ok { r with
        conn := { r.conn with
          wBuf := r.conn.wBuf.clear
          state := st
          log := r.conn.log ++ [.wrote k r.conn.wBuf.bytes (io.writes 0)] }
        interest := if r.conn.needResponse then .readable else .writable })
  /-- After the handshake: the answer to a heartbeat, and the commands from the channel. -/
  | started {r₁ : EventLoop} {c : Conn} :
      r.conn.state = .started → Beat k io r r₁ →
      Conn.Flushed k r.conn.r { r₁.conn with r := [] } c →
      WriteOutcome json client k io r (.ok { r₁ with conn := c, interest := .readable })
  /-- A panic at one of these commands. -/
  | startedPanic {r₁ : EventLoop} {c : Conn} {p : Panic} {written : List Cmd} :
      r.conn.state = .started → Beat k io r r₁ → p ≠ .noResponse → written ⊆ r.conn.r →
      Conn.Flushed k written { r₁.conn with r := [] } c →
      WriteOutcome json client k io r (.error (.halt (.panicked p) { r₁ with conn := c }))

/-- A handshake command as the connection writes it. -/
theorem call_handshake {r : EventLoop} {x : Except (Panic × Conn) Conn} {h : Handshake}
    {cmd : NsqCmd} {st : State} {need : Bool}
    (hx : x = do
      let c ← (r.conn.note (.handshake h r.conn.needResponse)).writeCmd cmd.asCmd
      pure { c with state := st, needResponse := need })
    (hlen : cmd.asCmd.msg.length ≤ 1) :
    ∃ buf : BytesMut, buf.bytes = r.conn.wBuf.bytes ++ cmdBytes cmd.asCmd ∧
      r.call x = .ok { r with conn := { r.conn with
        wBuf := buf
        state := st
        needResponse := need
        log := r.conn.log ++ [.handshake h r.conn.needResponse] } } := by
  obtain ⟨buf, hwrite, hbytes⟩ :=
    (r.conn.note (.handshake h r.conn.needResponse)).writeCmd_eq_ok hlen
  refine ⟨buf, hbytes, ?_⟩
  rw [hx, hwrite, Except.ok_bind]
  rfl

/-- Setting the state it is in changes nothing. -/
theorem setState_self {r : EventLoop} {st : State} (h : r.conn.state = st) : r.setState st = r := by
  subst h
  rfl

/-- The match on the state before a write: a handshake command, or none. -/
theorem command_cases (json : Json) (client : Client) (k : Stream) {r : EventLoop}
    (hstarted : r.conn.state ≠ .started) :
    (∃ h cmd st need, ∃ buf : BytesMut,
      Sends json client r.conn.config k r.conn.state h cmd st need ∧
      buf.bytes = r.conn.wBuf.bytes ++ cmdBytes cmd.asCmd ∧
      command json client k r = .ok { r with conn := { r.conn with
        wBuf := buf
        state := st
        needResponse := need
        log := r.conn.log ++ [.handshake h r.conn.needResponse] } }) ∨
    ∃ st, Mute client k r.conn.state st ∧ command json client k r = .ok (r.setState st) := by
  have hsame : ∀ st, r.conn.state = st → Mute client k st st → command json client k r = .ok r →
      ∃ st', Mute client k st st' ∧ command json client k r = .ok (r.setState st') :=
    fun st hst hmute hok => ⟨st, hmute, by rw [setState_self hst, hok]⟩
  cases hst : r.conn.state with
  | start =>
    exact .inr (hsame _ hst .start (by cases k <;> simp [command, plainCommand, tlsCommand, hst]
      <;> rfl))
  | tlsNegotiating =>
    exact .inr (hsame _ hst .tlsNegotiating (by
      cases k <;> simp [command, plainCommand, tlsCommand, hst] <;> rfl))
  | tls =>
    exact .inr (hsame _ hst .tls (by cases k <;> simp [command, plainCommand, tlsCommand, hst]
      <;> rfl))
  | started => exact absurd hst hstarted
  | identify =>
    cases k with
    | plain =>
      obtain ⟨buf, hbytes, hcall⟩ := call_handshake (r := r) (x := r.conn.identify json) rfl
        (Nat.le_refl 1)
      refine .inl ⟨_, _, _, _, buf, .identify, hbytes, ?_⟩
      rw [← hcall]
      simp [command, plainCommand, hst]
    | tls =>
      refine .inr (hsame _ hst .identify ?_)
      simp [command, tlsCommand, hst]
      rfl
  | auth =>
    cases hsecret : client.secret with
    | none =>
      exact .inr (hsame _ hst (.auth hsecret) (by
        cases k <;> simp [command, plainCommand, tlsCommand, hst, hsecret] <;> rfl))
    | some secret =>
      obtain ⟨buf, hbytes, hcall⟩ := call_handshake (r := r) (x := r.conn.auth secret) rfl
        (Nat.le_refl 1)
      refine .inl ⟨_, _, _, _, buf, .auth hsecret, hbytes, ?_⟩
      rw [← hcall]
      cases k <;> simp [command, plainCommand, tlsCommand, hst, hsecret]
  | subscribe =>
    obtain ⟨buf, hbytes, hcall⟩ := call_handshake (r := r)
      (x := r.conn.subscribe client.topic client.channel) rfl (Nat.zero_le 1)
    cases k with
    | plain =>
      refine .inl ⟨_, _, _, _, buf, .subscribe nofun, hbytes, ?_⟩
      rw [← hcall]
      simp [command, plainCommand, hst]
    | tls =>
      cases hp : client.isProducer with
      | true =>
        refine .inr ⟨.started, .producer hp, ?_⟩
        simp [command, tlsCommand, hst, hp]
        rfl
      | false =>
        refine .inl ⟨_, _, _, _, buf, .subscribe fun _ => hp, hbytes, ?_⟩
        rw [← hcall]
        simp [command, tlsCommand, hst, hp]
  | rdy =>
    obtain ⟨buf, hbytes, hcall⟩ := call_handshake (r := r) (x := r.conn.rdy client.rdy) rfl
      (Nat.zero_le 1)
    refine .inl ⟨_, _, _, _, buf, .rdy, hbytes, ?_⟩
    rw [← hcall]
    cases k <;> simp [command, plainCommand, tlsCommand, hst]

/-- The answer to a heartbeat never fails. -/
theorem beat_cases (k : Stream) (io : Io) (r : EventLoop) :
    ∃ r₁, Beat k io r r₁ ∧ onHeartbeat k io r = .ok r₁ := by
  unfold onHeartbeat
  cases hbeat : r.conn.heartbeat with
  | false => exact ⟨r, .quiet hbeat, rfl⟩
  | true =>
    obtain ⟨buf, hwrite, hbytes⟩ := (r.conn.note .nop).writeCmd_eq_ok
      (show NsqCmd.nop.asCmd.msg.length ≤ 1 from Nat.zero_le 1)
    refine ⟨_, .nop hbeat hbytes, ?_⟩
    simp only [if_true, hwrite, call, Except.ok_bind, write, Conn.write, Conn.writeTcp_eq]
    simp [Conn.heartbeatDone, Conn.note]
    rfl

/-- A connection that is not readable has no other outcomes. -/
theorem onWritable_outcome (json : Json) (client : Client) (k : Stream) (io : Io)
    (r : EventLoop) : WriteOutcome json client k io r (onWritable json client k io r) := by
  unfold onWritable
  by_cases hstarted : r.conn.state = .started
  · rw [if_neg (by simp [hstarted])]
    obtain ⟨r₁, hbeat, hok⟩ := beat_cases k io r
    have hr : r₁.conn.r = r.conn.r := by cases hbeat <;> rfl
    unfold onStarted
    rw [hok, Except.ok_bind]
    unfold call Conn.writeMessages
    cases hflush : Conn.writeEach k (fun n => io.writes (n + 1)) r₁.conn.r
        { r₁.conn with r := [] } with
    | ok c =>
      have hflushed := Conn.flushed_of_writeEach hflush
      rw [hr] at hflushed
      have hout : WriteOutcome json client k io r _ := .started hstarted hbeat hflushed
      exact hout
    | error x =>
      obtain ⟨hp, written, -, hsub, hflushed⟩ := Conn.flushed_of_writeEach_error hflush
      rw [hr] at hsub
      have hout : WriteOutcome json client k io r _ :=
        .startedPanic hstarted hbeat hp hsub hflushed
      exact hout
  · rw [if_pos hstarted]
    unfold onHandshake
    rcases command_cases json client k hstarted with
      ⟨h, cmd, st, need, buf, hsends, hbytes, hok⟩ | ⟨st, hmute, hok⟩
    · have hout : WriteOutcome json client k io r _ := .command hsends hbytes
      rw [hok, Except.ok_bind]
      simpa [write, Conn.write, Conn.writeTcp_eq, Conn.note, pure, Except.pure] using hout
    · have hout : WriteOutcome json client k io r _ := .mute hmute
      rw [hok, Except.ok_bind]
      simpa [write, Conn.write, Conn.writeTcp_eq, Conn.note, setState, pure, Except.pure]
        using hout

/-! ## What a step can do -/

/-- The outcomes of an event. -/
inductive EventOutcome (json : Json) (client : Client) (k : Stream) (io : Io) (r : EventLoop) :
    Event → Except Leave EventLoop → Prop where
  /-- A request to close. -/
  | close {ready : Ready} :
      0 < r.rClose →
      EventOutcome json client k io r ⟨.cmd, ready⟩ (.error (.halt (.returned true) { r with
        rClose := r.rClose - 1
        conn := { r.conn with
          s := r.conn.s ++ [⟨0, [], .inline⟩]
          log := r.conn.log ++ [.shutdown k] } }))
  /-- No request to close. -/
  | noClose {ready : Ready} :
      r.rClose = 0 → EventOutcome json client k io r ⟨.cmd, ready⟩ (.ok r)
  /-- The commands from the channel. -/
  | messages {ready : Ready} {c : Conn} :
      Conn.Flushed k r.conn.r { r.conn with r := [] } c →
      EventOutcome json client k io r ⟨.client, ready⟩ (.ok { r with conn := c })
  /-- A panic at one of these commands. -/
  | messagesPanic {ready : Ready} {c : Conn} {p : Panic} {written : List Cmd} :
      p ≠ .noResponse → written ≠ [] → written ⊆ r.conn.r →
      Conn.Flushed k written { r.conn with r := [] } c →
      EventOutcome json client k io r ⟨.client, ready⟩
        (.error (.halt (.panicked p) { r with conn := c }))
  | readable {x : Except Leave EventLoop} :
      ReadOutcome json client k io r x →
      EventOutcome json client k io r ⟨.connection, .readable⟩ x
  | writable {x : Except Leave EventLoop} :
      WriteOutcome json client k io r x →
      EventOutcome json client k io r ⟨.connection, .writable⟩ x

/-- An event has no other outcomes. -/
theorem onEvent_outcome (json : Json) (client : Client) (k : Stream) (io : Io) (e : Event)
    (r : EventLoop) : EventOutcome json client k io r e (onEvent json client k io e r) := by
  obtain ⟨token, ready⟩ := e
  cases token with
  | cmd =>
    simp only [onEvent, onClose]
    by_cases hclose : 0 < r.rClose
    · rw [if_pos hclose]
      exact .close hclose
    · rw [if_neg hclose]
      exact .noClose (Nat.eq_zero_of_not_pos hclose)
  | client =>
    simp only [onEvent, call, Conn.writeMessages]
    cases hflush : Conn.writeEach k io.writes r.conn.r { r.conn with r := [] } with
    | ok c => exact .messages (Conn.flushed_of_writeEach hflush)
    | error x =>
      obtain ⟨hp, written, hne, hsub, hflushed⟩ := Conn.flushed_of_writeEach_error hflush
      exact .messagesPanic hp hne hsub hflushed
  | connection =>
    cases ready with
    | readable => exact .readable (onReadable_outcome json client k io r)
    | writable => exact .writable (onWritable_outcome json client k io r)

/-- The phase of the loop over the stream `k`. -/
def phaseOf : Stream → List Event → Phase
  | .plain => .plain
  | .tls => .tls

/-- The outcomes of a step. -/
inductive StepOutcome (json : Json) (client : Client) (r : EventLoop) :
    Label → EventLoop → Prop where
  | send {cmd : Cmd} :
      StepOutcome json client r (.send cmd)
        { r with conn := { r.conn with r := r.conn.r ++ [cmd] } }
  | close : StepOutcome json client r .close { r with rClose := r.rClose + 1 }
  | pollPlain {evts : List Event} {now : ℕ} {s : List BytesMsg} :
      r.phase = .plain [] → r.tls ≠ 1 →
      (s = r.conn.s ∨ 45 * 10 ^ 9 < now - r.lastHeartbeat ∧ s = r.conn.s ++ [⟨0, [], .inline⟩]) →
      StepOutcome json client r (.poll evts now) { r with
        clock := now
        conn := { r.conn with s := s }
        phase := .plain evts }
  | pollTls {evts : List Event} {now : ℕ} :
      r.phase = .tls [] →
      StepOutcome json client r (.poll evts now) { r with clock := now, phase := .tls evts }
  | pollFailed :
      StepOutcome json client r .pollFailed { r with phase := .done (.panicked .poll) }
  | tls {answer : TlsAnswer} :
      (r.phase = .plain [] ∧ r.tls = 1 ∨ r.phase = .handshaking) →
      StepOutcome json client r (.tls answer) (onTls answer r)
  | event {k : Stream} {e : Event} {evts : List Event} {io : Io}
      {x : Except Leave EventLoop} :
      r.phase = phaseOf k (e :: evts) → EventOutcome json client k io r e x →
      StepOutcome json client r (.event io) (after (phaseOf k) evts x)

/-- A step has no other outcomes. -/
theorem step_outcome {json : Json} {client : Client} {r r' : EventLoop} {l : Label}
    (h : step json client r l = some r') : StepOutcome json client r l r' := by
  cases l with
  | send cmd =>
    cases h
    exact .send
  | close =>
    cases h
    exact .close
  | poll evts now =>
    simp only [step] at h
    split at h
    · split_ifs at h with htls
      cases h
      rename_i hphase
      have hpoll : ∀ s, (s = r.conn.s ∨ 45 * 10 ^ 9 < now - r.lastHeartbeat ∧
          s = r.conn.s ++ [⟨0, [], .inline⟩]) → StepOutcome json client r (.poll evts now) { r with
            clock := now
            conn := { r.conn with s := s }
            phase := .plain evts } := fun s hs => .pollPlain hphase htls hs
      simp only [onPoll]
      split_ifs with hlate
      · exact hpoll _ (.inr ⟨hlate, rfl⟩)
      · exact hpoll r.conn.s (.inl rfl)
    · cases h
      rename_i hphase
      exact .pollTls hphase
    · cases h
  | pollFailed =>
    simp only [step] at h
    split at h
    · split_ifs at h
      cases h
      exact .pollFailed
    · cases h
      exact .pollFailed
    · cases h
  | tls answer =>
    simp only [step] at h
    split at h
    · split_ifs at h with htls
      cases h
      rename_i hphase
      exact .tls (.inl ⟨hphase, htls⟩)
    · split_ifs at h with hanswer
      cases h
      rename_i hphase
      exact .tls (.inr hphase)
    · cases h
  | event io =>
    simp only [step] at h
    split at h
    · cases h
      rename_i e evts hphase
      exact .event (k := .plain) hphase (onEvent_outcome json client .plain io e r)
    · cases h
      rename_i e evts hphase
      exact .event (k := .tls) hphase (onEvent_outcome json client .tls io e r)
    · cases h

/-- The next event, in a step. -/
theorem step_event {r : EventLoop} {e : Event} {evts : List Event}
    (h : r.phase = phaseOf k (e :: evts)) : step json client r (.event io) =
      some (after (phaseOf k) evts (onEvent json client k io e r)) := by
  cases k <;> simp [step, h, phaseOf]

/-- There are no other steps that handle an event. -/
theorem exists_event_of_step {r r' : EventLoop} (h : step json client r (.event io) = some r') :
    ∃ k e evts, r.phase = phaseOf k (e :: evts) ∧
      r' = after (phaseOf k) evts (onEvent json client k io e r) := by
  simp only [step] at h
  split at h
  · rename_i e evts hphase
    cases h
    exact ⟨.plain, e, evts, hphase, rfl⟩
  · rename_i e evts hphase
    cases h
    exact ⟨.tls, e, evts, hphase, rfl⟩
  · cases h

/-- The next event, by the phase. -/
theorem nextEvent_of_phase {r : EventLoop} {e : Event} {evts : List Event}
    (h : r.phase = phaseOf k (e :: evts)) : r.nextEvent = some e := by
  unfold nextEvent
  cases k <;> rw [h] <;> rfl

/-- The phase, by the next event. -/
theorem phase_of_nextEvent {r : EventLoop} {e : Event} (h : r.nextEvent = some e) :
    ∃ k evts, r.phase = phaseOf k (e :: evts) := by
  unfold nextEvent at h
  cases hphase : r.phase with
  | plain evts =>
    cases evts with
    | nil => simp [hphase] at h
    | cons e' evts =>
      obtain rfl : e' = e := by simpa [hphase] using h
      exact ⟨.plain, evts, rfl⟩
  | tls evts =>
    cases evts with
    | nil => simp [hphase] at h
    | cons e' evts =>
      obtain rfl : e' = e := by simpa [hphase] using h
      exact ⟨.tls, evts, rfl⟩
  | _ => simp [hphase] at h

/-- In a batch `run` has not crashed. -/
theorem not_crashed_of_phase {r : EventLoop} {evts : List Event}
    (h : r.phase = phaseOf k evts) : ¬ Crashed r := by
  rintro (⟨p, hcrashed⟩ | hcrashed)
  · rw [hcrashed] at h
    cases k <;> cases h
  · rw [hcrashed] at h
    cases k <;> cases h

/-- In the plain loop `run` has not panicked or exited. -/
theorem not_crashed_of_plain {r : EventLoop} {evts : List Event} (h : r.phase = .plain evts) :
    ¬ Crashed r :=
  not_crashed_of_phase (k := .plain) h

/-- A response with which `run` ends is the end of a crash. -/
theorem crashed_of_refused {next : List Event → Phase} {evts : List Event} {r : EventLoop}
    {h : Halt} (hhalt : (∃ p, h = .panicked p ∧ p ≠ .noResponse) ∨ h = .exited) :
    Crashed (after next evts (.error (.halt h r))) := by
  rcases hhalt with ⟨p, rfl, -⟩ | rfl
  · exact .inl ⟨p, rfl⟩
  · exact .inr rfl

/-- What has crashed stays so. -/
theorem crashed_of_step {r r' : EventLoop} {l : Label} (h : Crashed r)
    (hstep : step json client r l = some r') : Crashed r' := by
  have hdone : ∃ halt, r.phase = .done halt := by
    rcases h with ⟨p, h⟩ | h
    · exact ⟨_, h⟩
    · exact ⟨_, h⟩
  obtain ⟨halt, hdone⟩ := hdone
  cases l with
  | send cmd =>
    cases hstep
    exact h
  | close =>
    cases hstep
    exact h
  | _ => simp [step, hdone] at hstep

/-- A step of the loop in a batch handles the next event. -/
theorem step_in_batch {r r' : EventLoop} {l : Label} {e : Event} {evts : List Event}
    (hphase : r.phase = phaseOf k (e :: evts)) (h : step json client r l = some r')
    (hinner : (∀ cmd, l ≠ .send cmd) ∧ l ≠ .close) :
    ∃ io, l = .event io ∧ r' = after (phaseOf k) evts (onEvent json client k io e r) := by
  cases l with
  | send cmd => exact absurd rfl (hinner.1 cmd)
  | close => exact absurd rfl hinner.2
  | event io =>
    rw [step_event hphase, Option.some.injEq] at h
    exact ⟨io, rfl, h.symm⟩
  | _ => cases k <;> simp [step, hphase, phaseOf] at h

/-! ## What an event leaves in the log -/

/-- What a readable connection leaves in the log. -/
theorem read_log {r : EventLoop} {x : Except Leave EventLoop}
    (hx : ReadOutcome json client k io r x) (next : List Event → Phase) (evts : List Event) :
    Since (fun o => (∃ bs, o = .read k bs) ∨ (∃ resp, o = .response resp) ∨ o = .tlsEnabled ∨
      o = .disconnected) r.conn.log (after next evts x).conn.log := by
  cases hx with
  | panicked _ hlog _ => exact hlog.mono fun o ho => .inl ho
  | @refused bs _ _ _ resp _ _ _ hfed _ _ hr' =>
    refine ⟨[.read k bs, .response resp], ?_, by simp⟩
    simp only [after]
    rw [hr', hfed.log, List.append_assoc]
    rfl
  | noResponse _ hfed _ _ => exact ⟨_, hfed.log, by simp⟩
  | eof _ => exact .refl _ _
  | wouldBlock _ => exact .snoc (by simp)
  | started _ hfed _ => exact ⟨_, hfed.log, by simp⟩
  | unasked _ hfed _ _ _ => exact ⟨_, hfed.log, by simp⟩
  | producer _ hfed _ _ _ => exact ⟨_, hfed.log, by simp⟩
  | @tlsSwitch bs _ _ _ resp _ _ hfed _ _ _ _ _ =>
    exact ⟨[.read k bs, .response (.response resp), .tlsEnabled], by simp [after, hfed.log],
      by simp⟩
  | @answered bs _ _ _ resp _ _ _ hfed _ _ =>
    exact ⟨[.read k bs, .response (.response resp)], by simp [after, hfed.log], by simp⟩

/-- What a connection that is not readable leaves in the log. -/
theorem write_log {r : EventLoop} {x : Except Leave EventLoop}
    (hx : WriteOutcome json client k io r x) (next : List Event → Phase) (evts : List Event) :
    Since (fun o => (∃ offered res, o = .wrote k offered res) ∨
      if r.conn.state = .started then o = .nop ∨ ∃ cmd, o = .user r.conn.state cmd
      else ∃ h need, o = .handshake h need) r.conn.log (after next evts x).conn.log := by
  have hflush : ∀ {r₁ : EventLoop} {cmds : List Cmd} {c : Conn}, r.conn.state = .started →
      Beat k io r r₁ → Conn.Flushed k cmds { r₁.conn with r := [] } c →
      Since (fun o => (∃ offered res, o = .wrote k offered res) ∨
        if r.conn.state = .started then o = .nop ∨ ∃ cmd, o = .user r.conn.state cmd
        else ∃ h need, o = .handshake h need) r.conn.log c.log := by
    intro r₁ cmds c hstate hbeat hflushed
    have hsame : r₁.conn.state = r.conn.state := by rw [hbeat.same]
    have hcmds := hflushed.log
    refine (hbeat.log.mono ?_).trans (hcmds.mono ?_)
    · rintro o (rfl | hwrote)
      · rw [if_pos hstate]
        exact .inr (.inl rfl)
      · exact .inl hwrote
    · rintro o (⟨cmd, -, rfl⟩ | hwrote)
      · rw [if_pos hstate, ← hsame]
        exact .inr (.inr ⟨cmd, rfl⟩)
      · exact .inl hwrote
  cases hx with
  | command hsends _ =>
    have hstate : r.conn.state ≠ .started := by
      intro hstate
      rw [hstate] at hsends
      cases hsends
    refine .append ?_
    intro o ho
    rcases List.mem_pair.mp ho with rfl | rfl
    · rw [if_neg hstate]
      exact .inr ⟨_, _, rfl⟩
    · exact .inl ⟨_, _, rfl⟩
  | mute _ => exact .snoc (.inl ⟨_, _, rfl⟩)
  | started hstate hbeat hflushed => exact hflush hstate hbeat hflushed
  | startedPanic hstate hbeat _ _ hflushed => exact hflush hstate hbeat hflushed

/-- A readable connection does not write. -/
theorem read_writes {r : EventLoop} {x : Except Leave EventLoop}
    (hx : ReadOutcome json client k io r x) (next : List Event → Phase) (evts : List Event) :
    Since (fun o => ∀ k offered res, o ≠ .wrote k offered res) r.conn.log
      (after next evts x).conn.log := by
  refine (read_log hx next evts).mono ?_
  rintro o (⟨bs, rfl⟩ | ⟨resp, rfl⟩ | rfl | rfl) <;> exact nofun

/-- A run of `write_messages` writes to its stream. -/
theorem flushed_writes {cmds : List Cmd} {c c' : Conn} (h : Conn.Flushed k cmds c c') :
    Since (fun o => WritesTo k o ∧ responseOf o = none) c.log c'.log := by
  refine h.log.mono ?_
  rintro o (⟨cmd, -, rfl⟩ | ⟨offered, res, rfl⟩)
  · exact ⟨nofun, rfl⟩
  · exact ⟨fun _ _ _ h => by cases h; rfl, rfl⟩

/-- A connection that is not readable writes to its stream. -/
theorem write_writes {r : EventLoop} {x : Except Leave EventLoop}
    (hx : WriteOutcome json client k io r x) (next : List Event → Phase) (evts : List Event) :
    Since (fun o => WritesTo k o ∧ responseOf o = none) r.conn.log
      (after next evts x).conn.log := by
  refine (write_log hx next evts).mono ?_
  rintro o (⟨offered, res, rfl⟩ | ho)
  · exact ⟨fun _ _ _ h => by cases h; rfl, rfl⟩
  · split_ifs at ho
    · rcases ho with rfl | ⟨cmd, rfl⟩ <;> exact ⟨nofun, rfl⟩
    · obtain ⟨h, need, rfl⟩ := ho
      exact ⟨nofun, rfl⟩

/-- What a connection that is not readable logs is inert. -/
theorem inert_of_write {k : Stream} {io : Io} {r : EventLoop} {x : Except Leave EventLoop}
    (hx : WriteOutcome json client k io r x) (next : List Event → Phase) (evts : List Event) :
    Since Inert r.conn.log (after next evts x).conn.log := by
  refine (write_log hx next evts).mono ?_
  rintro o (⟨offered, res, rfl⟩ | ho)
  · exact ⟨nofun, nofun⟩
  · split_ifs at ho
    · rcases ho with rfl | ⟨cmd, rfl⟩ <;> exact ⟨nofun, nofun⟩
    · obtain ⟨h, need, rfl⟩ := ho
      exact ⟨nofun, nofun⟩

/-- An event only writes to the stream of its loop. -/
theorem onEvent_writes {r : EventLoop} {e : Event}
    {x : Except Leave EventLoop} (hx : EventOutcome json client k io r e x)
    (next : List Event → Phase) (evts : List Event) :
    Since (WritesTo k) r.conn.log (after next evts x).conn.log := by
  cases hx with
  | close _ => exact .snoc nofun
  | noClose _ => exact .refl _ _
  | messages hflushed =>
    have hflush := flushed_writes hflushed
    exact hflush.mono fun _ h => h.1
  | messagesPanic _ _ _ hflushed =>
    have hflush := flushed_writes hflushed
    exact hflush.mono fun _ h => h.1
  | readable hread =>
    exact (read_writes hread next evts).mono fun o h k' offered res ho =>
      absurd ho (h k' offered res)
  | writable hwrite => exact (write_writes hwrite next evts).mono fun _ h => h.1

/-! ## What a step sends to the message channel -/

/-- What a readable connection does to the message channel. -/
theorem forwards_of_read {r : EventLoop} {x : Except Leave EventLoop}
    (hx : ReadOutcome json client k io r x) (next : List Event → Phase) (evts : List Event) :
    Conn.Forwards (Conn.readBytes io.read) r.conn (after next evts x).conn := by
  have hfed : ∀ {bs : List UInt8} {fs : List Frame} {c c' : Conn}, io.read = .ok bs →
      Conn.Fed k bs fs r.conn c → c'.s = c.s →
      Conn.Forwards (Conn.readBytes io.read) r.conn c' := by
    intro bs fs c c' hread hfed hs
    rw [hread]
    obtain ⟨fs', rest, hbytes, hparsed, hall, hsent⟩ := hfed.forwards
    exact ⟨fs', rest, hbytes, hparsed, hall, hs.trans hsent⟩
  cases hx with
  | panicked _ _ hforwards => exact hforwards
  | refused hread h _ _ hr' => exact hfed hread h (by simp only [after]; rw [hr'])
  | noResponse hread h _ _ => exact hfed hread h rfl
  | eof _ => exact .nothing rfl
  | wouldBlock _ => exact .nothing rfl
  | started hread h _ => exact hfed hread h rfl
  | unasked hread h _ _ _ => exact hfed hread h rfl
  | producer hread h _ _ _ => exact hfed hread h rfl
  | tlsSwitch hread h _ _ _ _ _ => exact hfed hread h rfl
  | answered hread h _ _ => exact hfed hread h rfl

/-- A connection that is not readable sends nothing to the message channel. -/
theorem sent_of_write {r : EventLoop} {x : Except Leave EventLoop}
    (hx : WriteOutcome json client k io r x) (next : List Event → Phase) (evts : List Event) :
    (after next evts x).conn.s = r.conn.s := by
  cases hx with
  | command _ _ => rfl
  | mute _ => rfl
  | started _ hbeat hflushed =>
    simp only [after]
    rw [hflushed.conn]
    cases hbeat <;> rfl
  | startedPanic _ hbeat _ _ hflushed =>
    simp only [after]
    rw [hflushed.conn]
    cases hbeat <;> rfl

/-- An event only adds to the message channel: empty messages, and what a read forwards. -/
theorem sent_of_event {r : EventLoop} {e : Event} {x : Except Leave EventLoop}
    (hx : EventOutcome json client k io r e x) (next : List Event → Phase) (evts : List Event) :
    ∃ sent, (after next evts x).conn.s = r.conn.s ++ sent ∧ ∀ m ∈ sent, m.bytes = [] ∨
      e = ⟨.connection, .readable⟩ ∧ ∃ f, r.conn.GetsTo (Conn.readBytes io.read) f ∧
        f.isMessage = true ∧ m = f.msg r.conn.msgTimeout (r.conn.storage 1) := by
  cases hx with
  | close _ => exact ⟨_, rfl, fun m hm => .inl (by rw [List.mem_singleton.mp hm])⟩
  | noClose _ => exact ⟨[], (List.append_nil _).symm, nofun⟩
  | messages hflushed =>
    refine ⟨[], ?_, nofun⟩
    simp only [after]
    rw [hflushed.conn, List.append_nil]
  | messagesPanic _ _ _ hflushed =>
    refine ⟨[], ?_, nofun⟩
    simp only [after]
    rw [hflushed.conn, List.append_nil]
  | readable hx =>
    obtain ⟨sent, hs, hsent⟩ := (forwards_of_read hx next evts).exists_sent
    exact ⟨sent, hs, fun m hm => .inr ⟨rfl, hsent m hm⟩⟩
  | writable hx => exact ⟨[], by rw [sent_of_write hx next evts, List.append_nil], nofun⟩

/-- A step only adds to the message channel: empty messages, and what a read forwards. -/
theorem sent_of_step {r r' : EventLoop} {l : Label} (h : step json client r l = some r') :
    ∃ sent, r'.conn.s = r.conn.s ++ sent ∧ ∀ m ∈ sent, m.bytes = [] ∨
      ∃ io f, l = .event io ∧ r.nextEvent = some ⟨.connection, .readable⟩ ∧
        r.conn.GetsTo (Conn.readBytes io.read) f ∧ f.isMessage = true ∧
        m = f.msg r.conn.msgTimeout (r.conn.storage 1) := by
  cases step_outcome h with
  | send => exact ⟨[], (List.append_nil _).symm, nofun⟩
  | close => exact ⟨[], (List.append_nil _).symm, nofun⟩
  | pollPlain _ _ hs =>
    rcases hs with rfl | ⟨-, rfl⟩
    · exact ⟨[], (List.append_nil _).symm, nofun⟩
    · exact ⟨_, rfl, fun m hm => .inl (by rw [List.mem_singleton.mp hm])⟩
  | pollTls _ => exact ⟨[], (List.append_nil _).symm, nofun⟩
  | pollFailed => exact ⟨[], (List.append_nil _).symm, nofun⟩
  | @tls answer _ => cases answer <;> exact ⟨[], (List.append_nil _).symm, nofun⟩
  | @event k e evts io x hphase hx =>
    obtain ⟨sent, hs, hsent⟩ := sent_of_event hx (phaseOf k) evts
    refine ⟨sent, hs, fun m hm => ?_⟩
    rcases hsent m hm with hnil | ⟨rfl, f, hf⟩
    · exact .inl hnil
    · exact .inr ⟨io, f, rfl, nextEvent_of_phase hphase, hf⟩

/-! ## The end of `run` -/

/-- `run` has ended. -/
def Over (r : EventLoop) : Prop := ∃ h, r.phase = .done h

/-- What is over stays so. -/
theorem over_of_step {r r' : EventLoop} {l : Label} (h : Over r)
    (hstep : step json client r l = some r') : Over r' := by
  obtain ⟨halt, hdone⟩ := h
  cases l with
  | send cmd =>
    cases hstep
    exact ⟨halt, hdone⟩
  | close =>
    cases hstep
    exact ⟨halt, hdone⟩
  | _ => simp [step, hdone] at hstep

/-! ## Runs on given inputs -/

/-- `poll` finds the connection writable, and the socket takes up to 1000 bytes of every write. -/
def writing : List Label :=
  [.poll [⟨.connection, .writable⟩] 0, .event ⟨.ok [], fun _ => .ok 1000, true⟩]

/-- `poll` finds the connection readable, and the socket gives these bytes. -/
def reading (bs : List UInt8) : List Label :=
  [.poll [⟨.connection, .readable⟩] 0, .event ⟨.ok bs, fun _ => .ok 0, true⟩]

/-- The same, and the bytes are a response. -/
def replying (text : String) : List Label := reading (Frame.ofPayload 0 (Utf8.asBytes text)).wire

/-- The payload of a message with this id and this body. -/
def message (id : String) (body : List UInt8) : List UInt8 :=
  List.replicate 10 0 ++ Utf8.asBytes id ++ body

/-- The same, and the bytes are a message. -/
def receiving (id : String) (body : List UInt8) : List Label :=
  reading (Frame.ofPayload 2 (message id body)).wire

/-- The thirteen fields of a server configuration, in the order of the structure; `serde_json` reads
a structure from an array of its fields as well as from an object. -/
def granted (tls auth : Bool) : String :=
  match tls, auth with
  | false, false => "[2500,\"1\",900000,60000,false,false,0,6,false,0,false,16384,250]"
  | false, true => "[2500,\"1\",900000,60000,false,false,0,6,false,0,true,16384,250]"
  | true, false => "[2500,\"1\",900000,60000,true,false,0,6,false,0,false,16384,250]"
  | true, true => "[2500,\"1\",900000,60000,true,false,0,6,false,0,true,16384,250]"

/-- `Config::default()` of a host without a name, as `serde_json` writes it. -/
def asking (tls : Bool) : String :=
  "\x7b\"client_id\":null,\"hostname\":null,\"feature_negotiation\":true," ++
  "\"heartbeat_interval\":30000,\"output_buffer_size\":16384,\"output_buffer_timeout\":250," ++
  "\"tls_v1\":" ++ (if tls then "true" else "false") ++ ",\"snappy\":false,\"deflate\":false," ++
  "\"deflate_level\":6,\"sample_rate\":0,\"user_agent\":\"nsq_client\",\"message_timeout\":0\x7d"

/-- `serde_json` on these texts. -/
def serde : Json where
  toString config := asking config.tlsV1
  fromStr text :=
    if text = granted false false then some ⟨60000, false, false⟩
    else if text = granted false true then some ⟨60000, false, true⟩
    else if text = granted true false then some ⟨60000, true, false⟩
    else if text = granted true true then some ⟨60000, true, true⟩
    else none

/-- The handshake over the plain stream, without authorization. -/
def joining : List Label :=
  writing ++ replying (granted false false) ++ writing ++ replying "OK" ++ writing

end EventLoop

end NsqClient
