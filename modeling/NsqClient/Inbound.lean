import NsqClient.Matching

set_option relaxedAutoImplicit false
set_option autoImplicit false

/-!
# From the socket to the message channel

Over a whole run of `Client::run`, on both streams and through the switch to TLS: the bytes that
arrived are the frames `decode` took off them, read by read, and what is in the read buffer, and the
message channel holds the payloads of the message frames, in order, and besides them only empty
messages.

A step of the event loop reads (`NsqClient.Conn.Brings`), or nothing comes in by it.  A read that
panics takes frames too, and leaves a rest that is in no buffer any more.

## Main definitions

* `NsqClient.Conn.Brings` — frames are taken off the bytes of a read, and their messages are sent.
* `NsqClient.EventLoop.Inflow` — what comes in by a step.
* `NsqClient.EventLoop.Decoded` — all the frames taken so far.
* `NsqClient.EventLoop.Uncut` — the condition that a read does not end in the last bytes of a frame.

## Main results

* `NsqClient.EventLoop.inflow_of_step` — what a step takes.
* `NsqClient.EventLoop.decoded_run` — what a run has taken.
* `NsqClient.EventLoop.decoded_run_uncut` — whole frames only, if no read ends in the last bytes of
  one.
-/

namespace NsqClient

/-- The messages in a channel as bytes, but for the empty ones. -/
def payloads (ms : List BytesMsg) : List (List UInt8) := (ms.map BytesMsg.bytes).filter (· ≠ [])

/-- The messages that frames carry, but for the empty ones. -/
def messages (fs : List Frame) : List (List UInt8) :=
  ((fs.filter Frame.isMessage).map Frame.payload).filter (· ≠ [])

theorem payloads_append (ms ms' : List BytesMsg) :
    payloads (ms ++ ms') = payloads ms ++ payloads ms' := by
  simp [payloads]

theorem messages_append (fs gs : List Frame) :
    messages (fs ++ gs) = messages fs ++ messages gs := by
  simp [messages]

/-- An empty message has no payload. -/
theorem payloads_closing (ms : List BytesMsg) (timeout : UInt64) :
    payloads (ms ++ [⟨timeout, [], .inline⟩]) = payloads ms := by
  simp [payloads]

/-- Message frames are forwarded with their payloads. -/
theorem payloads_frames (fs : List Frame) (timeout : UInt64) (st : Storage) :
    payloads ((fs.filter Frame.isMessage).map fun f => f.msg timeout st) = messages fs := by
  simp [payloads, messages, Frame.msg, Function.comp_def]

/-- Entries that are not reads bring nothing. -/
theorem reads_since {P : Obs → Prop} {log log' : List Obs} (h : Since P log log')
    (hP : ∀ o, P o → o.arrived = none) : reads log' = reads log := by
  obtain ⟨tail, rfl, htail⟩ := h
  rw [reads_append, List.append_right_eq_self, reads, List.filterMap_eq_nil_iff]
  exact fun o ho => hP o (htail o ho)

/-- An entry that is not a read. -/
theorem reads_note (log : List Obs) {o : Obs} (ho : o.arrived = none) :
    reads (log ++ [o]) = reads log := by
  rw [reads_append]
  simp [reads, ho]

/-- An entry that is a read. -/
theorem reads_read (log : List Obs) (k : Stream) (bs : List UInt8) :
    reads (log ++ [.read k bs]) = reads log ++ [bs] := by
  rw [reads_append]
  simp [reads, Obs.arrived]

namespace Conn

/-- A read brought the bytes `bs`.  Of these, with what was in the buffer, `decode` takes the frames
`fs`, and `rest` is left; the messages the frames carry were sent to the message channel. -/
structure Brings (bs : List UInt8) (fs : List Frame) (rest : List UInt8) (c c' : Conn) : Prop where
  log : reads c'.log = reads c.log ++ [bs]
  bytes : c.rBuf ++ bs = wire fs ++ rest
  parsed : Parsed (c.storage 1) fs rest
  taken : ∀ f ∈ fs, f.Readable ∧ f.Within bs.length
  sent : payloads c'.s = payloads c.s ++ messages fs

/-- What comes after does not matter, if nothing is read and no messages are sent. -/
theorem Brings.keep {bs : List UInt8} {fs : List Frame} {rest : List UInt8} {c c' c'' : Conn}
    (h : Brings bs fs rest c c') (hlog : reads c''.log = reads c'.log)
    (hs : payloads c''.s = payloads c'.s) : Brings bs fs rest c c'' :=
  ⟨hlog.trans h.log, h.bytes, h.parsed, h.taken, hs.trans h.sent⟩

/-- A read brings the frames it is said to bring. -/
theorem Fed.brings {k : Stream} {bs : List UInt8} {fs : List Frame} {c c' : Conn}
    (h : Fed k bs fs c c') : Brings bs fs c'.rBuf c c' := by
  refine ⟨?_, h.bytes, h.parsed, fun f hf => ⟨h.readable f hf, h.within f hf⟩, ?_⟩
  · rw [h.log, reads_read]
  · have hconn := h.conn
    rw [emitAll_eq] at hconn
    rw [hconn, payloads_append, payloads_frames]
    rfl

/-- A read that panics brought nothing, or the frames before the one it panics at. -/
theorem brings_of_read_panic {k : Stream} {res : ReadResult} {c c' : Conn} {p : Panic}
    (h : c.read k res = .error (p, c')) :
    c' = c ∨ ∃ fs rest, Brings (readBytes res) fs rest c c' := by
  unfold read readTcp at h
  split_ifs at h
  · cases h
    exact .inl rfl
  rcases res with e | _ | ⟨b, bs⟩
  · cases h
  · cases h
  rcases Except.bind_eq_error.mp h with hdec | ⟨u, -, h⟩
  · have hdec : decode (b :: bs).length (c.receive k (b :: bs)) = .error (p, c') := hdec
    rcases decode_terminates (b :: bs).length (c.receive k (b :: bs)) with
      ⟨v, -, -, hr⟩ | ⟨v, q, hp, hv, hr⟩
    · rw [hdec] at hr
      cases hr
    rw [hdec] at hr
    cases hr
    -- the passes before the last one took frames, and the last one sent nothing
    obtain ⟨fs, ht⟩ := exists_takes hp
    obtain ⟨-, hc'⟩ := eq_of_decodePass_fail hv
    refine .inr ⟨fs, v.rBuf, ?_, ht.bytes, ht.parsed,
      fun f hf => ⟨ht.readable f hf, ht.within f hf⟩, ?_⟩
    · rw [hc', log_of_passes hp]
      exact reads_read _ _ _
    · have hconn := ht.conn
      rw [emitAll_eq] at hconn
      rw [hc']
      simp only
      rw [hconn, payloads_append, payloads_frames]
      rfl
  · cases h

end Conn

namespace EventLoop

variable {json : Json} {client : Client} {k : Stream} {io : Io}

/-! ## Events -/

/-- What looking at a response leaves alone, whatever comes of it. -/
structure Untouched (r r' : EventLoop) : Prop where
  rBuf : r'.conn.rBuf = r.conn.rBuf
  s : r'.conn.s = r.conn.s
  reads : reads r'.conn.log = reads r.conn.log

theorem Untouched.trans {r r' r'' : EventLoop} (h : Untouched r r') (h' : Untouched r' r'') :
    Untouched r r'' :=
  ⟨h'.rBuf.trans h.rBuf, h'.s.trans h.s, h'.reads.trans h.reads⟩

/-- A response taken is looked at. -/
theorem untouched_onResponse (st : State) (resp : String) (r : EventLoop)
    (next : List Event → Phase) (evts : List Event) :
    Untouched r (after next evts (onResponse json client st (resp, r))) := by
  have hchoice : ∀ {r' : EventLoop}, Untouched r r' →
      Untouched r (after next evts (authOrSubscribe client r')) := by
    intro r' h
    rcases authOrSubscribe_cases client r' with hexit | ⟨st, -, hok⟩
    · rw [hexit]
      exact ⟨h.rBuf, h.s, h.reads⟩
    · rw [hok]
      exact ⟨h.rBuf, h.s, h.reads⟩
  cases st with
  | identify =>
    simp only [onResponse]
    cases json.fromStr resp with
    | none => exact ⟨rfl, rfl, rfl⟩
    | some cfg =>
      simp only
      split_ifs
      · exact ⟨rfl, rfl, reads_note _ rfl⟩
      · exact hchoice ⟨rfl, rfl, rfl⟩
  | tls => exact hchoice ⟨rfl, rfl, rfl⟩
  | _ => exact ⟨rfl, rfl, rfl⟩

/-- The match on the state after a read. -/
theorem untouched_response (r : EventLoop) (next : List Event → Phase) (evts : List Event) :
    Untouched r (after next evts (response json client k r)) := by
  rw [response_eq]
  split_ifs
  · rcases List.eq_nil_or_concat r.conn.responses with hnil | ⟨rs, resp, hrs⟩
    · rw [getResponse_nil hnil]
      exact ⟨rfl, rfl, rfl⟩
    · rw [List.concat_eq_append] at hrs
      cases resp with
      | error e =>
        rw [getResponse_error hrs]
        exact ⟨rfl, rfl, reads_note _ rfl⟩
      | response resp =>
        rw [getResponse_response hrs, Except.ok_bind]
        have hanswer : Untouched r (answer r rs resp) := ⟨rfl, rfl, reads_note _ rfl⟩
        exact hanswer.trans (untouched_onResponse _ _ _ _ _)
  · exact ⟨rfl, rfl, rfl⟩
  · exact ⟨rfl, rfl, rfl⟩

/-- What is left of a readable connection after a read that brought bytes. -/
theorem untouched_afterRead (r : EventLoop) (next : List Event → Phase) (evts : List Event) :
    Untouched r (after next evts (afterRead json client k r)) := by
  unfold afterRead
  split_ifs
  · have h : Untouched r (after next evts (response json client k r)) :=
      untouched_response r next evts
    cases hresponse : response json client k r with
    | ok r' =>
      rw [hresponse] at h
      exact ⟨h.rBuf, h.s, h.reads⟩
    | error x =>
      rw [hresponse] at h
      exact h
  · exact ⟨rfl, rfl, rfl⟩

/-- What comes in by a step: frames, if it reads; if `run` goes on, the rest is in the buffer. -/
inductive Inflow (r : EventLoop) (l : Label) (r' : EventLoop) : Prop where
  | nothing : reads r'.conn.log = reads r.conn.log → payloads r'.conn.s = payloads r.conn.s →
      (¬ Crashed r' → r'.conn.rBuf = r.conn.rBuf) → Inflow r l r'
  | read {io : Io} {fs : List Frame} {rest : List UInt8} : l = .event io →
      r.nextEvent = some ⟨.connection, .readable⟩ →
      Conn.Brings (Conn.readBytes io.read) fs rest r.conn r'.conn →
      (¬ Crashed r' → rest = r'.conn.rBuf) → Inflow r l r'

/-- By a readable connection. -/
theorem inflow_of_readable {r : EventLoop} {next : List Event → Phase} {evts : List Event}
    (hnext : r.nextEvent = some ⟨.connection, .readable⟩) :
    Inflow r (.event io) (after next evts (onReadable json client k io r)) := by
  rw [onReadable_eq]
  unfold read
  rcases hread : r.conn.read k io.read with ⟨p, c⟩ | ⟨e | n, c⟩
  · have hcrashed :
        ¬ ¬ Crashed (after next evts (.error (.halt (.panicked p) { r with conn := c }))) :=
      fun halive => halive (.inl ⟨p, rfl⟩)
    rcases Conn.brings_of_read_panic hread with rfl | ⟨fs, rest, hbrings⟩
    · exact .nothing rfl rfl fun _ => rfl
    · exact .read rfl hnext hbrings fun halive => absurd halive hcrashed
  · obtain ⟨-, rfl⟩ := Conn.read_error hread
    simp only
    split_ifs
    · exact .nothing rfl rfl fun _ => rfl
    · exact .nothing (reads_note _ rfl) rfl fun _ => rfl
    · exact .nothing rfl rfl fun _ => rfl
  · rcases Conn.read_ok hread with ⟨-, rfl, rfl⟩ | ⟨bs, fs, hbs, rfl, hfed⟩
    · exact .nothing rfl rfl fun _ => rfl
    · cases bs with
      | nil => exact absurd rfl hfed.ne_nil
      | cons b bs =>
        have h := @untouched_afterRead json client k { r with conn := c } next evts
        have hbrings := hfed.brings.keep h.reads (congrArg payloads h.s)
        rw [show b :: bs = Conn.readBytes io.read by rw [hbs]; rfl] at hbrings
        exact .read rfl hnext hbrings fun _ => h.rBuf.symm

/-- A run of `write_messages` reads nothing. -/
theorem reads_of_flushed {cmds : List Cmd} {c c' : Conn} (h : Conn.Flushed k cmds c c') :
    NsqClient.reads c'.log = NsqClient.reads c.log := by
  refine reads_since h.log ?_
  rintro o (⟨cmd, -, rfl⟩ | ⟨offered, res, rfl⟩) <;> rfl

/-- A connection that is not readable keeps its read buffer. -/
theorem rBuf_of_write {r : EventLoop} {x : Except Leave EventLoop}
    (hx : WriteOutcome json client k io r x) (next : List Event → Phase) (evts : List Event) :
    (after next evts x).conn.rBuf = r.conn.rBuf := by
  cases hx with
  | command _ _ => rfl
  | mute _ => rfl
  | started _ hbeat hflushed =>
    simp only [after]
    rw [hflushed.conn]
    cases hbeat <;> rfl
  | startedPanic _ hbeat _ _ hflushed =>
    simp only [after]
    rw [hflushed.conn]
    cases hbeat <;> rfl

/-- By an event. -/
theorem inflow_of_event {e : Event} {r : EventLoop} {next : List Event → Phase}
    {evts : List Event} (hnext : r.nextEvent = some e) :
    Inflow r (.event io) (after next evts (onEvent json client k io e r)) := by
  obtain ⟨x, heq⟩ : ∃ x, onEvent json client k io e r = x := ⟨_, rfl⟩
  have hx := onEvent_outcome json client k io e r
  rw [heq] at hx ⊢
  cases hx with
  | close _ => exact .nothing (reads_note _ rfl) (payloads_closing _ _) fun _ => rfl
  | noClose _ => exact .nothing rfl rfl fun _ => rfl
  | messages hflushed =>
    have hlog := reads_of_flushed hflushed
    refine .nothing hlog ?_ fun _ => ?_
    · simp only [after]
      rw [hflushed.conn]
    · simp only [after]
      rw [hflushed.conn]
  | messagesPanic _ _ _ hflushed =>
    have hlog := reads_of_flushed hflushed
    refine .nothing hlog ?_ fun _ => ?_
    · simp only [after]
      rw [hflushed.conn]
    · simp only [after]
      rw [hflushed.conn]
  | readable _ =>
    rw [← heq]
    exact inflow_of_readable hnext
  | writable hwrite =>
    have hlog : NsqClient.reads (after next evts x).conn.log = NsqClient.reads r.conn.log := by
      refine reads_since (inert_of_write hwrite next evts) ?_
      rintro o ⟨hread, -⟩
      cases o with
      | read k bs => exact absurd rfl (hread k bs)
      | _ => rfl
    exact .nothing hlog (congrArg payloads (sent_of_write hwrite next evts))
      fun _ => rBuf_of_write hwrite next evts

/-! ## Runs -/

/-- What comes in by a step. -/
theorem inflow_of_step {r r' : EventLoop} {l : Label} (h : step json client r l = some r') :
    Inflow r l r' := by
  cases l with
  | event io =>
    obtain ⟨k, e, evts, hphase, rfl⟩ := exists_event_of_step h
    exact inflow_of_event (nextEvent_of_phase hphase)
  | poll evts now =>
    cases step_outcome h with
    | pollPlain _ _ hs =>
      rcases hs with rfl | ⟨-, rfl⟩
      · exact .nothing rfl rfl fun _ => rfl
      · exact .nothing rfl (payloads_closing _ _) fun _ => rfl
    | pollTls _ => exact .nothing rfl rfl fun _ => rfl
  | tls answer =>
    cases step_outcome h
    cases answer <;> exact .nothing rfl rfl fun _ => rfl
  | _ =>
    cases step_outcome h
    exact .nothing rfl rfl fun _ => rfl

/-- The frames taken so far, whose messages are in the channel; as long as `run` goes on, the rest
of what arrived is in the buffer. -/
structure Decoded (fs : List Frame) (r : EventLoop) : Prop where
  unpacked : ∃ rest, Unpacked (NsqClient.reads r.conn.log) fs rest ∧
    (¬ Crashed r → rest = r.conn.rBuf)
  readable : ∀ f ∈ fs, f.Readable
  sent : payloads r.conn.s = messages fs

theorem decoded_start (client : Client) (cmds : List Cmd) (alloc : Alloc) (clock : ℕ) :
    Decoded [] (start client cmds alloc clock) :=
  ⟨⟨[], .start, fun _ => rfl⟩, by simp, rfl⟩

/-- A step extends the frames taken.

**Proof sketch.** As long as `run` goes on, what arrived is the frames and the buffer, so the frames
that the step takes off the buffer follow.  After a crash nothing more is read. -/
theorem decoded_step {fs : List Frame} {r r' : EventLoop} {l : Label} (h : Decoded fs r)
    (hstep : step json client r l = some r') :
    Decoded fs r' ∨ ∃ io gs, l = .event io ∧ r.nextEvent = some ⟨.connection, .readable⟩ ∧
      (∀ f ∈ gs, r.conn.GetsTo (Conn.readBytes io.read) f) ∧ Decoded (fs ++ gs) r' := by
  obtain ⟨rest, hunpacked, hrest⟩ := h.unpacked
  cases inflow_of_step hstep with
  | nothing hlog hs hbuf =>
    refine .inl ⟨⟨rest, by rw [hlog]; exact hunpacked, fun halive => ?_⟩, h.readable,
      hs.trans h.sent⟩
    rw [hbuf halive]
    exact hrest fun hcrashed => halive (crashed_of_step hcrashed hstep)
  | @read io gs rest' hl hnext hbrings hrest' =>
    obtain ⟨k, evts, hphase⟩ := phase_of_nextEvent hnext
    rw [hrest (not_crashed_of_phase hphase)] at hunpacked
    refine .inr ⟨io, gs, hl, hnext,
      fun f hf => Conn.getsTo_of_mem hbrings.bytes hbrings.parsed hbrings.taken hf,
      ⟨rest', ?_, hrest'⟩, ?_, ?_⟩
    · rw [hbrings.log]
      exact .read hunpacked hbrings.bytes hbrings.parsed
    · exact List.forall_mem_append.mpr ⟨h.readable, fun f hf => (hbrings.taken f hf).1⟩
    · rw [hbrings.sent, h.sent, messages_append]

/-- Every run has taken some frames. -/
theorem decoded_run {ok : EventLoop → Label → Prop} {cmds : List Cmd} {alloc : Alloc} {clock : ℕ}
    {ls : List Label} {r : EventLoop}
    (hrun : Machine.Run (step json client) ok (start client cmds alloc clock) ls r) :
    ∃ fs, Decoded fs r := by
  refine hrun.invariant (fun r => ∃ fs, Decoded fs r) ⟨[], decoded_start client cmds alloc clock⟩ ?_
  rintro r l r' ⟨fs, h⟩ - hstep
  rcases decoded_step h hstep with h' | ⟨io, gs, -, -, -, h'⟩
  · exact ⟨fs, h'⟩
  · exact ⟨fs ++ gs, h'⟩

/-- A read does not end in the last four bytes of a frame that it gets to. -/
def Uncut (r : EventLoop) (l : Label) : Prop :=
  ∀ io, l = .event io → r.nextEvent = some ⟨.connection, .readable⟩ →
    ∀ f, r.conn.GetsTo (Conn.readBytes io.read) f → f.Honest

/-- If no read does, the frames taken are whole. -/
theorem decoded_run_uncut {ok : EventLoop → Label → Prop} (hok : ∀ r l, ok r l → Uncut r l)
    {cmds : List Cmd} {alloc : Alloc} {clock : ℕ} {ls : List Label} {r : EventLoop}
    (hrun : Machine.Run (step json client) ok (start client cmds alloc clock) ls r) :
    ∃ fs, Decoded fs r ∧ ∀ f ∈ fs, f.Honest := by
  refine hrun.invariant (fun r => ∃ fs, Decoded fs r ∧ ∀ f ∈ fs, f.Honest)
    ⟨[], decoded_start client cmds alloc clock, by simp⟩ ?_
  rintro r l r' ⟨fs, h, hfs⟩ huncut hstep
  rcases decoded_step h hstep with h' | ⟨io, gs, hl, hnext, hgets, h'⟩
  · exact ⟨fs, h', hfs⟩
  · exact ⟨fs ++ gs, h', List.forall_mem_append.mpr
      ⟨hfs, fun f hf => hok r l huncut io hl hnext f (hgets f hf)⟩⟩

end EventLoop

end NsqClient
