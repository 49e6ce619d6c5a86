import NsqClient.Steps

set_option relaxedAutoImplicit false
set_option autoImplicit false

/-!
# Reports of a disconnect

The client reports a disconnect by shutting a stream down, by an empty message to the consumers,
or by `IsConnected` with `connected = false`.  The control thread forwards every control message as
a request to close, a read that would block counts as a disconnect, the plain loop gives up
45 seconds after the last heartbeat it answered whatever interval is configured, and the end of the
file is not reported at all.  Away from these cases the reports are justified.

## Main definitions

* `NsqClient.reports` — how many reports a connection made.
* `NsqClient.EventLoop.Watch`, `NsqClient.EventLoop.Watch.watch` — the event loop with the control
  thread, and what a bystander notes down.
* `NsqClient.EventLoop.Watch.Silent` — no heartbeat arrived within the configured interval.
* `NsqClient.EventLoop.Watch.Proper` — a step away from the cases above.
* `NsqClient.EventLoop.Watch.Exact` — a step reports a disconnect exactly if it should.

## Main results

* `NsqClient.EventLoop.Watch.eof_unreported` — the end of the file is never reported.
* `NsqClient.EventLoop.Watch.reporting_exact` — in a run of proper steps the reports are exact.
-/

namespace NsqClient

/-! ## Reports -/

/-- A stream shut down, or `IsConnected` with `connected = false`. -/
def Obs.isReport : Obs → Bool
  | shutdown _ => true
  | disconnected => true
  | _ => false

/-- How often a connection reported a disconnect, in one of the three ways. -/
def reports (c : Conn) : ℕ := c.log.countP Obs.isReport + c.s.countP fun m => m.bytes.isEmpty

/-- What adds no report. -/
theorem reports_quiet {c c' : Conn} (hlog : Since (fun o => o.isReport = false) c.log c'.log)
    (hs : ∃ sent, c'.s = c.s ++ sent ∧ ∀ m ∈ sent, m.bytes ≠ []) : reports c' = reports c := by
  obtain ⟨tail, htail, hnone⟩ := hlog
  obtain ⟨sent, hsent, hne⟩ := hs
  have hlogs : tail.countP Obs.isReport = 0 := by
    rw [List.countP_eq_zero]
    intro o ho
    rw [hnone o ho]
    decide
  have hsents : sent.countP (fun m => m.bytes.isEmpty) = 0 := by
    rw [List.countP_eq_zero]
    intro m hm
    simpa using hne m hm
  rw [reports, reports, htail, hsent, List.countP_append, List.countP_append, hlogs, hsents]
  rfl

namespace EventLoop

variable {json : Json} {client : Client} {k : Stream} {io : Io}

/-! ## What events do -/

/-- A readable connection that does not block logs no report. -/
theorem reportless_of_read {r : EventLoop} {x : Except Leave EventLoop}
    (hx : ReadOutcome json client k io r x) (hblock : io.read ≠ .error .wouldBlock)
    (next : List Event → Phase) (evts : List Event) :
    Since (fun o => o.isReport = false) r.conn.log (after next evts x).conn.log := by
  cases hx with
  | panicked _ hlog _ =>
    refine hlog.mono ?_
    rintro o ⟨bs, rfl⟩
    rfl
  | @refused bs _ _ _ resp _ _ _ hfed _ _ hr' =>
    refine ⟨[.read k bs, .response resp], ?_, by simp [Obs.isReport]⟩
    simp only [after]
    rw [hr', hfed.log, List.append_assoc]
    rfl
  | noResponse _ hfed _ _ => exact ⟨_, hfed.log, by simp [Obs.isReport]⟩
  | eof _ => exact .refl _ _
  | wouldBlock hread => exact absurd hread hblock
  | started _ hfed _ => exact ⟨_, hfed.log, by simp [Obs.isReport]⟩
  | unasked _ hfed _ _ _ => exact ⟨_, hfed.log, by simp [Obs.isReport]⟩
  | producer _ hfed _ _ _ => exact ⟨_, hfed.log, by simp [Obs.isReport]⟩
  | @tlsSwitch bs _ _ _ resp _ _ hfed _ _ _ _ _ =>
    exact ⟨[.read k bs, .response (.response resp), .tlsEnabled], by simp [after, hfed.log],
      by simp [Obs.isReport]⟩
  | @answered bs _ _ _ resp _ _ _ hfed _ _ =>
    exact ⟨[.read k bs, .response (.response resp)], by simp [after, hfed.log],
      by simp [Obs.isReport]⟩

/-- What a run of `write_messages` leaves alone. -/
theorem reportless_of_flushed {cmds : List Cmd} {c c' : Conn} (h : Conn.Flushed k cmds c c') :
    Since (fun o => o.isReport = false) c.log c'.log ∧ c'.s = c.s ∧ c'.heartbeat = c.heartbeat := by
  refine ⟨h.log.mono ?_, ?_, ?_⟩
  · rintro o (⟨cmd, -, rfl⟩ | ⟨offered, res, rfl⟩) <;> rfl
  · rw [h.conn]
  · rw [h.conn]

/-- A connection that is not readable reports nothing.  A heartbeat that waits is still there
afterwards, or it is answered now. -/
theorem reportless_of_write {r : EventLoop} {x : Except Leave EventLoop}
    (hx : WriteOutcome json client k io r x) (next : List Event → Phase) (evts : List Event) :
    Since (fun o => o.isReport = false) r.conn.log (after next evts x).conn.log ∧
      (after next evts x).clock = r.clock ∧
      ((after next evts x).conn.heartbeat = r.conn.heartbeat ∧
          (after next evts x).lastHeartbeat = r.lastHeartbeat ∨
        (after next evts x).lastHeartbeat = r.clock) := by
  have hlog := write_log hx next evts
  refine ⟨hlog.mono ?_, ?_⟩
  · rintro o (⟨offered, res, rfl⟩ | ho)
    · rfl
    · split_ifs at ho
      · rcases ho with rfl | ⟨cmd, rfl⟩ <;> rfl
      · obtain ⟨h, need, rfl⟩ := ho
        rfl
  · cases hx with
    | command _ _ => exact ⟨rfl, .inl ⟨rfl, rfl⟩⟩
    | mute _ => exact ⟨rfl, .inl ⟨rfl, rfl⟩⟩
    | started _ hbeat hflushed =>
      obtain ⟨-, -, hheart⟩ := reportless_of_flushed hflushed
      cases hbeat with
      | quiet _ => exact ⟨rfl, .inl ⟨hheart, rfl⟩⟩
      | nop _ _ => exact ⟨rfl, .inr rfl⟩
    | startedPanic _ hbeat _ _ hflushed =>
      obtain ⟨-, -, hheart⟩ := reportless_of_flushed hflushed
      cases hbeat with
      | quiet _ => exact ⟨rfl, .inl ⟨hheart, rfl⟩⟩
      | nop _ _ => exact ⟨rfl, .inr rfl⟩

/-! ## The control thread and a bystander -/

/-- A read that brought bytes: when it was, and what was in the read buffer then. -/
structure Reading where
  time : ℕ
  buf : List UInt8

/-- The event loop with the control thread in front of it, and what a bystander notes down: whether
the application asked to close, whether a read ended in the end of the file or in a fatal error,
what was read, and when the connection began. -/
structure Watch where
  loop : EventLoop
  closed : Bool
  ended : Bool
  reads : List Reading
  began : ℕ

/-- A control message is received, or the loop takes a step. -/
inductive Act where
  | control (m : ConnMsg)
  | loop (l : Label)

/-- The read that is done in a step of the loop. -/
def readOf (r : EventLoop) : Label → Option ReadResult
  | .event io => if r.nextEvent = some ⟨.connection, .readable⟩ then some io.read else none
  | _ => none

/-- The end of the file, on a buffer that is not empty. -/
def eofOf (client : Client) : Option ReadResult → Bool
  | some (.ok []) => client.config.outputBufferSize ≠ 0
  | _ => false

/-- A fatal error. -/
def fatalOf : Option ReadResult → Bool
  | some (.error e) => e ≠ .wouldBlock
  | _ => false

/-- What a read brings into the read buffer. -/
def arrival (r : EventLoop) : Option ReadResult → List Reading
  | some (.ok (b :: bs)) => [⟨r.clock, r.conn.rBuf ++ b :: bs⟩]
  | _ => []

namespace Watch

/-- The machine: the control thread forwards every control message as the number 1. -/
def watch (json : Json) (client : Client) (w : Watch) : Act → Option Watch
  | .control m => (step json client w.loop .close).map fun r =>
    { w with loop := r, closed := w.closed || m = .close }
  | .loop .close => none
  | .loop l => (step json client w.loop l).map fun r =>
    { w with
      loop := r
      ended := w.ended || eofOf client (readOf w.loop l) || fatalOf (readOf w.loop l)
      reads := w.reads ++ arrival w.loop (readOf w.loop l) }

/-- The start. -/
def start (client : Client) (r : List Cmd) (alloc : Alloc) (clock : ℕ) : Watch where
  loop := EventLoop.start client r alloc clock
  closed := false
  ended := false
  reads := []
  began := clock

/-- A heartbeat was a complete frame in what a read left in the buffer. -/
def Beats (buf : List UInt8) : Prop :=
  ∃ gs f rest, buf = wire (gs ++ [f]) ++ rest ∧ (∀ g ∈ gs ++ [f], g.Honest) ∧ f.isHeartbeat = true

/-- The server was heard at a time: the connection began, or a heartbeat arrived. -/
def Heard (w : Watch) (t : ℕ) : Prop := t = w.began ∨ ∃ x ∈ w.reads, x.time = t ∧ Beats x.buf

/-- Heartbeats are enabled, and none arrived within the configured interval, which is in
milliseconds. -/
def Silent (client : Client) (w : Watch) : Prop :=
  client.config.heartbeatInterval ≠ -1 ∧
    ∀ t, w.Heard t → client.config.heartbeatInterval.toInt * 10 ^ 6 < (w.loop.clock : ℤ) - t

/-- There was a request to close, the end of the file, or a fatal error. -/
def Excused (w : Watch) : Prop := w.closed = true ∨ w.ended = true

/-- The clock does not go back. -/
def Ticks (w : Watch) : Act → Prop
  | .loop (.poll _ now) => w.loop.clock ≤ now
  | _ => True

/-- The step reads the end of the file. -/
def EndOfFile (client : Client) (w : Watch) : Act → Prop
  | .loop l => eofOf client (readOf w.loop l) = true
  | .control _ => False

instance (client : Client) (w : Watch) : (a : Act) → Decidable (EndOfFile client w a)
  | .loop _ => inferInstanceAs (Decidable (_ = true))
  | .control _ => .isFalse id

/-- The 45 seconds of the plain loop do not pass, or they pass with no heartbeat left to answer and
with the configured interval. -/
def Patient (client : Client) (r : EventLoop) (now : ℕ) : Prop :=
  r.phase = .plain [] → 45 * 10 ^ 9 < now - r.lastHeartbeat → r.conn.heartbeat = false ∧
    client.config.heartbeatInterval ≠ -1 ∧
    client.config.heartbeatInterval.toInt * 10 ^ 6 < (now : ℤ) - r.lastHeartbeat

/-- A read does not block, takes no frame without its last bytes, and gets to no empty message. -/
def Calm (r : EventLoop) (res : ReadResult) : Prop :=
  res ≠ .error .wouldBlock ∧ ∀ f, r.conn.GetsTo (Conn.readBytes res) f →
    f.Honest ∧ (f.isMessage = true → f.payload ≠ [])

/-- A read that brings bytes covers every heartbeat that is complete then. -/
def Prompt (r : EventLoop) (res : ReadResult) : Prop :=
  ∀ b bs, res = .ok (b :: bs) → ∀ gs f rest, r.conn.rBuf ++ b :: bs = wire (gs ++ [f]) ++ rest →
    (∀ g ∈ gs ++ [f], g.Honest) → f.isHeartbeat = true → ∀ g ∈ gs ++ [f], g.Within (bs.length + 1)

/-- As long as there is no other reason to report a disconnect, the application only asks to close,
the 45 seconds agree with the heartbeats, and the reads are calm and prompt; and never is the end
of the file read. -/
def Proper (client : Client) (w : Watch) (a : Act) : Prop :=
  ¬ EndOfFile client w a ∧ (w.Excused ∨
    match a with
    | .control m => m = .close
    | .loop (.poll _ now) => Patient client w.loop now
    | .loop l => ∀ res ∈ readOf w.loop l, Calm w.loop res ∧ Prompt w.loop res)

/-! ## Heartbeats -/

/-- A heartbeat that arrived at a time is answered since, or it waits to be. -/
def Covers (r : EventLoop) (t : ℕ) : Prop :=
  t ≤ r.clock ∧ (r.conn.heartbeat = false → t ≤ r.lastHeartbeat)

/-- After a prompt read of a buffer in which a heartbeat is complete, the heartbeat waits. -/
theorem heartbeat_of_fed {r : EventLoop} {b : UInt8} {bs : List UInt8} {fs : List Frame} {c : Conn}
    (hfed : Conn.Fed k (b :: bs) fs r.conn c) (hprompt : Prompt r (.ok (b :: bs)))
    (hbeats : Beats (r.conn.rBuf ++ b :: bs)) : c.heartbeat = true := by
  obtain ⟨gs, f, rest, hbuf, hhonest, hbeat⟩ := hbeats
  have hwithin := hprompt b bs rfl gs f rest hbuf hhonest hbeat
  obtain ⟨hs, hfs, -⟩ := hfed.frames hbuf fun g hg => ⟨hhonest g hg, hwithin g hg⟩
  rw [hfed.heartbeat, hfs]
  simp [hbeat]

/-- After a readable connection `run` is over, or what waited to be answered still waits, and so
does what arrived with a prompt read. -/
theorem waits_of_read {r : EventLoop} {x : Except Leave EventLoop}
    (hx : ReadOutcome json client k io r x) (next : List Event → Phase) (evts : List Event) :
    (∃ h, (after next evts x).phase = .done h) ∨
      (after next evts x).clock = r.clock ∧ (after next evts x).rClose = r.rClose ∧
      (after next evts x).lastHeartbeat = r.lastHeartbeat ∧
      (r.conn.heartbeat = true → (after next evts x).conn.heartbeat = true) ∧
      ∀ y ∈ arrival r (some io.read), Prompt r io.read → Beats y.buf →
        y.time = r.clock ∧ (after next evts x).conn.heartbeat = true := by
  have hfed : ∀ {bs : List UInt8} {fs : List Frame} {c : Conn} {heartbeat : Bool},
      io.read = .ok bs → Conn.Fed k bs fs r.conn c → heartbeat = c.heartbeat →
      (r.conn.heartbeat = true → heartbeat = true) ∧
      ∀ y ∈ arrival r (some io.read), Prompt r io.read → Beats y.buf →
        y.time = r.clock ∧ heartbeat = true := by
    rintro bs fs c _ hread hfed rfl
    refine ⟨fun h => by rw [hfed.heartbeat, h, Bool.true_or], fun y hy hprompt hbeats => ?_⟩
    rw [hread] at hy hprompt
    cases bs with
    | nil => cases hy
    | cons b bs =>
      cases List.mem_singleton.mp hy
      exact ⟨rfl, heartbeat_of_fed hfed hprompt hbeats⟩
  cases hx with
  | panicked _ _ _ => exact .inl ⟨_, rfl⟩
  | refused _ _ _ _ _ => exact .inl ⟨_, rfl⟩
  | noResponse _ _ _ _ => exact .inl ⟨_, rfl⟩
  | eof hread =>
    refine .inr ⟨rfl, rfl, rfl, id, ?_⟩
    rw [hread]
    exact nofun
  | wouldBlock hread =>
    refine .inr ⟨rfl, rfl, rfl, id, ?_⟩
    rw [hread]
    exact nofun
  | started hread h _ => exact .inr ⟨rfl, rfl, rfl, hfed hread h rfl⟩
  | unasked hread h _ _ _ => exact .inr ⟨rfl, rfl, rfl, hfed hread h rfl⟩
  | producer hread h _ _ _ => exact .inr ⟨rfl, rfl, rfl, hfed hread h rfl⟩
  | tlsSwitch hread h _ _ _ _ _ => exact .inr ⟨rfl, rfl, rfl, hfed hread h rfl⟩
  | answered hread h _ _ => exact .inr ⟨rfl, rfl, rfl, hfed hread h rfl⟩

/-! ## Steps -/

/-- A control message. -/
theorem watch_control {w w' : Watch} {m : ConnMsg}
    (h : watch json client w (.control m) = some w') : w' = { w with
      loop := { w.loop with rClose := w.loop.rClose + 1 }
      closed := w.closed || m = .close } := by
  simp only [watch, step, Option.map_some, Option.some.injEq] at h
  exact h.symm

/-- A step of the loop. -/
theorem watch_loop {w w' : Watch} {l : Label} (h : watch json client w (.loop l) = some w') :
    l ≠ .close ∧ ∃ r, step json client w.loop l = some r ∧ w' = { w with
      loop := r
      ended := w.ended || eofOf client (readOf w.loop l) || fatalOf (readOf w.loop l)
      reads := w.reads ++ arrival w.loop (readOf w.loop l) } := by
  cases l with
  | close => cases h
  | _ =>
    simp only [watch, Option.map_eq_some_iff] at h
    obtain ⟨r, hstep, rfl⟩ := h
    exact ⟨nofun, r, hstep, rfl⟩

/-- What was once a reason is one ever after. -/
theorem excused_of_watch {w w' : Watch} {a : Act} (hw : w.Excused)
    (h : watch json client w a = some w') : w'.Excused := by
  cases a with
  | control m =>
    rw [watch_control h]
    rcases hw with hw | hw
    · exact .inl (by simp [hw])
    · exact .inr hw
  | loop l =>
    obtain ⟨-, r, -, rfl⟩ := watch_loop h
    rcases hw with hw | hw
    · exact .inl hw
    · exact .inr (by simp [hw])

/-- The read of a step, by its event. -/
theorem readOf_event {r : EventLoop} {e : Event} {evts : List Event}
    (hphase : r.phase = phaseOf k (e :: evts)) :
    readOf r (.event io) = if e = ⟨.connection, .readable⟩ then some io.read else none := by
  simp [readOf, nextEvent_of_phase hphase]

/-- After a step of the loop `run` is over, or the requests to close are no more than before, what
was covered still is, and so is a heartbeat that arrived with a prompt read. -/
theorem covers_of_step {r r' : EventLoop} {l : Label} (h : step json client r l = some r')
    (hl : l ≠ .close) (hticks : ∀ evts now, l = .poll evts now → r.clock ≤ now) :
    (∃ h, r'.phase = .done h) ∨ r'.rClose ≤ r.rClose ∧ (∀ t, Covers r t → Covers r' t) ∧
      ∀ y ∈ arrival r (readOf r l), (∀ res ∈ readOf r l, Prompt r res) → Beats y.buf →
        Covers r' y.time := by
  cases step_outcome h with
  | send => exact .inr ⟨le_rfl, fun t ht => ht, nofun⟩
  | close => exact absurd rfl hl
  | pollPlain _ _ _ =>
    exact .inr ⟨le_rfl, fun t ht => ⟨ht.1.trans (hticks _ _ rfl), ht.2⟩, nofun⟩
  | pollTls _ => exact .inr ⟨le_rfl, fun t ht => ⟨ht.1.trans (hticks _ _ rfl), ht.2⟩, nofun⟩
  | pollFailed => exact .inl ⟨_, rfl⟩
  | @tls answer _ =>
    cases answer with
    | noConnector => exact .inl ⟨_, rfl⟩
    | failure => exact .inl ⟨_, rfl⟩
    | connected => exact .inr ⟨le_rfl, fun t ht => ht, nofun⟩
    | wouldBlock => exact .inr ⟨le_rfl, fun t ht => ht, nofun⟩
  | @event k e evts io x hphase hx =>
    have hread : readOf r (.event io) = _ := readOf_event hphase
    cases hx with
    | close _ => exact .inl ⟨_, rfl⟩
    | noClose _ =>
      rw [hread]
      exact .inr ⟨le_rfl, fun t ht => ht, nofun⟩
    | messages hflushed =>
      rw [hread]
      obtain ⟨-, -, hheart⟩ := reportless_of_flushed hflushed
      refine .inr ⟨le_rfl, fun t ht => ⟨ht.1, fun hf => ht.2 ?_⟩, nofun⟩
      exact hheart.symm.trans hf
    | messagesPanic _ _ _ _ => exact .inl ⟨_, rfl⟩
    | readable hx =>
      rw [hread, if_pos rfl]
      rcases waits_of_read hx (phaseOf k) evts with
        hdone | ⟨hclock, hclose, hlast, hkeeps, hbrings⟩
      · exact .inl hdone
      · refine .inr ⟨hclose.le, fun t ht => ?_, fun y hy hprompt hbeats => ?_⟩
        · rw [Covers, hclock, hlast]
          refine ⟨ht.1, fun hf => ht.2 ?_⟩
          by_contra hheart
          rw [hkeeps (by simpa using hheart)] at hf
          cases hf
        · obtain ⟨htime, hheart⟩ := hbrings y hy (hprompt _ rfl) hbeats
          rw [Covers, hclock, htime, hheart]
          exact ⟨le_rfl, nofun⟩
    | writable hx =>
      rw [hread]
      obtain ⟨-, hclock, hheart⟩ := reportless_of_write hx (phaseOf k) evts
      refine .inr ⟨?_, fun t ht => ?_, nofun⟩
      · cases hx with
        | started _ hbeat _ => cases hbeat <;> exact le_rfl
        | startedPanic _ hbeat _ _ _ => cases hbeat <;> exact le_rfl
        | _ => exact le_rfl
      · rw [Covers, hclock]
        rcases hheart with ⟨hsame, hlast⟩ | hlast
        · rw [hsame, hlast]
          exact ht
        · rw [hlast]
          exact ⟨ht.1, fun _ => ht.1⟩

/-! ## Runs -/

/-- `run` is over, or there is a reason to report a disconnect, or no request to close waits and
everything heard is covered. -/
def Watched (w : Watch) : Prop :=
  (∃ h, w.loop.phase = .done h) ∨ w.Excused ∨
    w.loop.rClose = 0 ∧ ∀ t, w.Heard t → Covers w.loop t

theorem watched_start (client : Client) (cmds : List Cmd) (alloc : Alloc) (clock : ℕ) :
    Watched (start client cmds alloc clock) := by
  refine .inr (.inr ⟨rfl, ?_⟩)
  rintro t (rfl | ⟨x, hx, -⟩)
  · exact ⟨le_rfl, fun _ => le_rfl⟩
  · cases hx

/-- A proper step, as long as there is no reason. -/
theorem proper_loop {w : Watch} {l : Label} (hproper : Proper client w (.loop l))
    (hw : ¬ w.Excused) : (∀ evts now, l = .poll evts now → Patient client w.loop now) ∧
      ∀ res ∈ readOf w.loop l, Calm w.loop res ∧ Prompt w.loop res := by
  have hproper := hproper.2.resolve_left hw
  cases l with
  | poll evts now =>
    refine ⟨?_, nofun⟩
    rintro _ _ ⟨⟩
    exact hproper
  | _ => exact ⟨nofun, hproper⟩

/-- The proper steps keep it. -/
theorem watched_step {w w' : Watch} {a : Act} (hw : Watched w) (hticks : w.Ticks a)
    (hproper : Proper client w a) (h : watch json client w a = some w') : Watched w' := by
  by_cases hexcused : w.Excused
  · exact .inr (.inl (excused_of_watch hexcused h))
  · cases a with
    | control m =>
      have hm : m = .close := hproper.2.resolve_left hexcused
      rw [watch_control h, hm]
      exact .inr (.inl (.inl (by simp)))
    | loop l =>
      obtain ⟨hl, r, hstep, rfl⟩ := watch_loop h
      rcases hw with hdone | he | ⟨hclose, hheard⟩
      · exact .inl (over_of_step hdone hstep)
      · exact absurd he hexcused
      · have hclock : ∀ evts now, l = .poll evts now → w.loop.clock ≤ now := by
          rintro evts now rfl
          exact hticks
        rcases covers_of_step hstep hl hclock with hdone | ⟨hle, hcovers, hbrings⟩
        · exact .inl hdone
        · refine .inr (.inr ⟨Nat.le_zero.mp (hclose ▸ hle), ?_⟩)
          rintro t (rfl | ⟨y, hy, rfl, hbeats⟩)
          · exact hcovers _ (hheard _ (.inl rfl))
          · rcases List.mem_append.mp hy with hy | hy
            · exact hcovers _ (hheard _ (.inr ⟨y, hy, rfl, hbeats⟩))
            · have hreads := (proper_loop hproper hexcused).2
              exact hbrings y hy (fun res hres => (hreads res hres).2) hbeats

/-- A calm read makes no report. -/
theorem reports_of_read {r : EventLoop} {x : Except Leave EventLoop}
    (hx : ReadOutcome json client k io r x) (hcalm : Calm r io.read)
    (next : List Event → Phase) (evts : List Event) :
    reports (after next evts x).conn = reports r.conn := by
  refine reports_quiet (reportless_of_read hx hcalm.1 next evts) ?_
  obtain ⟨sent, hs, hsent⟩ := (forwards_of_read hx next evts).exists_sent
  refine ⟨sent, hs, fun m hm => ?_⟩
  obtain ⟨f, hgets, hmsg, rfl⟩ := hsent m hm
  exact (hcalm.2 f hgets).2 hmsg

/-- Without a reason before it, a proper step makes a report only when 45 seconds have passed in
the plain loop. -/
theorem reports_of_step {r r' : EventLoop} {l : Label} (h : step json client r l = some r')
    (hclose : r.rClose = 0) (hcalm : ∀ res ∈ readOf r l, Calm r res) :
    reports r'.conn = reports r.conn ∨ ∃ evts now, l = .poll evts now ∧ r.phase = .plain [] ∧
      45 * 10 ^ 9 < now - r.lastHeartbeat ∧ r'.lastHeartbeat = r.lastHeartbeat ∧
      r'.clock = now := by
  cases step_outcome h with
  | send => exact .inl rfl
  | close => exact .inl rfl
  | pollPlain hphase _ hs =>
    rcases hs with rfl | ⟨hlate, rfl⟩
    · exact .inl rfl
    · exact .inr ⟨_, _, rfl, hphase, hlate, rfl, rfl⟩
  | pollTls _ => exact .inl rfl
  | pollFailed => exact .inl rfl
  | @tls answer _ => cases answer <;> exact .inl rfl
  | @event k e evts io x hphase hx =>
    refine .inl ?_
    cases hx with
    | close hpos => omega
    | noClose _ => rfl
    | messages hflushed =>
      obtain ⟨hlog, hs, -⟩ := reportless_of_flushed hflushed
      exact reports_quiet hlog ⟨[], by simpa [after] using hs, nofun⟩
    | messagesPanic _ _ _ hflushed =>
      obtain ⟨hlog, hs, -⟩ := reportless_of_flushed hflushed
      exact reports_quiet hlog ⟨[], by simpa [after] using hs, nofun⟩
    | readable hx =>
      refine reports_of_read hx (hcalm _ ?_) (phaseOf k) evts
      rw [readOf_event hphase, if_pos rfl]
      rfl
    | writable hx =>
      have hs := sent_of_write hx (phaseOf k) evts
      exact reports_quiet (reportless_of_write hx (phaseOf k) evts).1
        ⟨[], by rw [hs, List.append_nil], nofun⟩

/-- A step that reads. -/
theorem exists_of_readOf {r : EventLoop} {l : Label} {res : ReadResult}
    (h : readOf r l = some res) : ∃ k io evts, l = .event io ∧
      r.phase = phaseOf k (⟨.connection, .readable⟩ :: evts) ∧ io.read = res := by
  cases l with
  | event io =>
    simp only [readOf] at h
    split_ifs at h with hnext
    cases h
    obtain ⟨k, evts, hphase⟩ := phase_of_nextEvent hnext
    exact ⟨k, io, evts, rfl, hphase, rfl⟩
  | _ => cases h

/-- At the end of the file `run` goes back to the head of its loop, unless the vector of the read
could not be allocated. -/
theorem phase_of_eof {r : EventLoop} {x : Except Leave EventLoop}
    (hx : ReadOutcome json client k io r x) (hread : io.read = .ok []) (evts : List Event) :
    (after (phaseOf k) evts x).phase = phaseOf k [] ∨
      ∃ p, (after (phaseOf k) evts x).phase = .done (.panicked p) := by
  have hnone : ∀ {bs : List UInt8} {fs : List Frame} {c : Conn}, io.read = .ok bs →
      ¬ Conn.Fed k bs fs r.conn c := by
    intro bs fs c hbs hfed
    rw [hread] at hbs
    cases hbs
    exact hfed.ne_nil rfl
  cases hx with
  | panicked _ _ _ => exact .inr ⟨_, rfl⟩
  | eof _ => exact .inl rfl
  | wouldBlock h =>
    rw [hread] at h
    cases h
  | refused h hfed _ _ _ => exact absurd hfed (hnone h)
  | noResponse h hfed _ _ => exact absurd hfed (hnone h)
  | started h hfed _ => exact absurd hfed (hnone h)
  | unasked h hfed _ _ _ => exact absurd hfed (hnone h)
  | producer h hfed _ _ _ => exact absurd hfed (hnone h)
  | tlsSwitch h hfed _ _ _ _ _ => exact absurd hfed (hnone h)
  | answered h hfed _ _ => exact absurd hfed (hnone h)

/-- The end of the file is not reported: the rest of the batch is dropped and `run` is at the head
of its loop, unless the vector of the read could not be allocated. -/
theorem eof_unreported {w w' : Watch} {a : Act} (heof : EndOfFile client w a)
    (h : watch json client w a = some w') : reports w'.loop.conn = reports w.loop.conn ∧
      (w'.loop.phase = .plain [] ∨ w'.loop.phase = .tls [] ∨
        ∃ p, w'.loop.phase = .done (.panicked p)) := by
  cases a with
  | control m => cases heof
  | loop l =>
    obtain ⟨-, r, hstep, rfl⟩ := watch_loop h
    have hread : readOf w.loop l = some (.ok []) := by
      have heof : eofOf client (readOf w.loop l) = true := heof
      unfold eofOf at heof
      split at heof
      · assumption
      · cases heof
    obtain ⟨k, io, evts, rfl, hphase, hres⟩ := exists_of_readOf hread
    rw [step_event hphase, Option.some.injEq] at hstep
    subst hstep
    have hx := onReadable_outcome json client k io w.loop
    have hcalm : Calm w.loop io.read := by
      rw [hres]
      exact ⟨nofun, fun f hgets => absurd hgets Conn.not_getsTo_nil⟩
    refine ⟨reports_of_read hx hcalm (phaseOf k) evts, ?_⟩
    rcases phase_of_eof hx hres evts with hhead | hpanic
    · cases k with
      | plain => exact .inl hhead
      | tls => exact .inr (.inl hhead)
    · exact .inr (.inr hpanic)

/-- The reports of a step are exact: it shuts the stream down, leaves an empty message for the
consumers or sends `IsConnected` with `connected = false` only if a request to close was received,
or a read ended in the end of the file or a fatal error, or heartbeats are enabled and none arrived
within the configured interval; and a step that reads the end of the file makes a report. -/
def Exact (json : Json) (client : Client) (w : Watch) (a : Act) : Prop :=
  ∀ w', watch json client w a = some w' →
    (reports w.loop.conn < reports w'.loop.conn →
      w'.closed = true ∨ w'.ended = true ∨ w'.Silent client) ∧
    (EndOfFile client w a → reports w.loop.conn < reports w'.loop.conn)

/-- Disconnects are reported exactly in every run of the plain and of the TLS loop with the control
thread, whatever control messages, results of reads and writes, batches and times are in it, as
long as each step is proper.

**Proof sketch.**  As long as there is no reason, no request to close waits, since the control
thread received none; and every heartbeat that arrived is answered or waits to be, since a prompt
read takes it (`watched_step`).  Then only the 45 seconds make a report (`reports_of_step`), and
they agree with what was heard. -/
theorem reporting_exact {cmds : List Cmd} {alloc : Alloc} {clock : ℕ} {acts : List Act}
    {w : Watch} {a : Act}
    (hrun : Machine.Run (watch json client) (fun w a => w.Ticks a ∧ Proper client w a)
      (start client cmds alloc clock) acts w)
    (hticks : w.Ticks a) (hproper : Proper client w a) : Exact json client w a := by
  intro w' hstep
  refine ⟨fun hreport => ?_, fun heof => absurd heof hproper.1⟩
  have hw : Watched w := hrun.invariant Watched (watched_start client cmds alloc clock)
    fun _ _ _ hw hok hstep => watched_step hw hok.1 hok.2 hstep
  by_cases hexcused : w'.Excused
  · rcases hexcused with hclosed | hended
    · exact .inl hclosed
    · exact .inr (.inl hended)
  · have hnone : ¬ w.Excused := fun he => hexcused (excused_of_watch he hstep)
    cases a with
    | control m =>
      rw [watch_control hstep] at hreport
      exact absurd hreport (Nat.lt_irrefl _)
    | loop l =>
      obtain ⟨hl, r, hr, rfl⟩ := watch_loop hstep
      obtain ⟨hpatient, hreads⟩ := proper_loop hproper hnone
      have hover : ¬ ∃ h, w.loop.phase = .done h := by
        rintro ⟨halt, hdone⟩
        cases l with
        | send cmd =>
          cases hr
          exact absurd hreport (Nat.lt_irrefl _)
        | close => exact hl rfl
        | _ => simp [step, hdone] at hr
      obtain ⟨hclose, hheard⟩ := (hw.resolve_left hover).resolve_left hnone
      rcases reports_of_step hr hclose fun res hres => (hreads res hres).1 with
        hsame | ⟨evts, now, rfl, hphase, hlate, hlast, hnow⟩
      · exact absurd hsame (Nat.ne_of_gt hreport)
      · obtain ⟨hquiet, henabled, hlong⟩ := hpatient evts now rfl hphase hlate
        refine .inr (.inr ⟨henabled, fun t ht => ?_⟩)
        have htime : t ≤ w.loop.lastHeartbeat := by
          refine (hheard t ?_).2 hquiet
          simpa [Heard, readOf, arrival] using ht
        simp only [hnow]
        omega

/-- A request to close. -/
theorem reporting_exact_close :
    ∃ (json : Json) (client : Client) (w w' : Watch),
      Machine.Run (watch json client) (fun w a => w.Ticks a ∧ Proper client w a)
        (start client [] .exact 0) [.control .close, .loop (.poll [⟨.cmd, .readable⟩] 5)] w ∧
      watch json client w (.loop (.event ⟨.ok [], fun _ => .ok 0, true⟩)) = some w' ∧
      reports w.loop.conn < reports w'.loop.conn ∧
      (w'.closed = true ∨ w'.ended = true ∨ w'.Silent client) := by
  have hrun : Machine.Run (watch serde ⟨"t", "c", none, 1, .default none⟩)
      (fun w a => w.Ticks a ∧ Proper ⟨"t", "c", none, 1, .default none⟩ w a)
      (start ⟨"t", "c", none, 1, .default none⟩ [] .exact 0)
      [.control .close, .loop (.poll [⟨.cmd, .readable⟩] 5)] _ :=
    .cons ⟨trivial, id, .inr rfl⟩ rfl
      (.cons ⟨Nat.zero_le 5, by decide, .inl (.inl rfl)⟩ rfl .nil)
  have hexact : Exact _ _ _ (.loop (.event ⟨.ok [], fun _ => .ok 0, true⟩)) :=
    reporting_exact hrun trivial ⟨by decide, .inl (.inl rfl)⟩
  obtain ⟨hreason, -⟩ := hexact _ rfl
  exact ⟨_, _, _, _, hrun, rfl, by decide, hreason (by decide)⟩

/-- Reports without a reason, and an end of the file without a report: 46 seconds without
heartbeats, which are not enabled; a question whether the client is connected; a read that would
block; the end of the file. -/
theorem reporting_inexact :
    ∃ (json : Json) (client : Int64 → Client), (∀ i, (client i).config.heartbeatInterval = i) ∧
      ∀ x ∈ ([(-1, [], .loop (.poll [] (46 * 10 ^ 9))),
          (30000, [.control .getIsConnected, .loop (.poll [⟨.cmd, .readable⟩] 0)],
            .loop (.event ⟨.ok [], fun _ => .ok 0, true⟩)),
          (30000, [.loop (.poll [⟨.connection, .readable⟩] 0)],
            .loop (.event ⟨.error .wouldBlock, fun _ => .ok 0, true⟩)),
          (30000, [.loop (.poll [⟨.connection, .readable⟩] 0)],
            .loop (.event ⟨.ok [], fun _ => .ok 0, true⟩))] : List (Int64 × List Act × Act)),
        ∃ w, Machine.Run (watch json (client x.1)) Watch.Ticks
            (start (client x.1) [] .exact 0) x.2.1 w ∧
          w.Ticks x.2.2 ∧ ¬ Exact json (client x.1) w x.2.2 := by
  refine ⟨serde,
    fun i => ⟨"t", "c", none, 1, { Config.default none with heartbeatInterval := i }⟩, fun _ => rfl,
    List.forall_mem_cons.mpr ⟨?_, List.forall_mem_cons.mpr ⟨?_, List.forall_mem_cons.mpr
      ⟨?_, List.forall_mem_cons.mpr ⟨?_, nofun⟩⟩⟩⟩⟩
  · refine ⟨_, .nil, Nat.zero_le _, fun h => ?_⟩
    rcases (h _ rfl).1 (by decide) with hclosed | hended | hsilent
    · exact absurd hclosed (by decide)
    · exact absurd hended (by decide)
    · exact hsilent.1 rfl
  · refine ⟨_, .cons trivial rfl (.cons (Nat.zero_le _) rfl .nil), trivial, fun h => ?_⟩
    rcases (h _ rfl).1 (by decide) with hclosed | hended | hsilent
    · exact absurd hclosed (by decide)
    · exact absurd hended (by decide)
    · exact absurd (hsilent.2 0 (.inl rfl)) (by decide)
  · refine ⟨_, .cons (Nat.zero_le _) rfl .nil, trivial, fun h => ?_⟩
    rcases (h _ rfl).1 (by decide) with hclosed | hended | hsilent
    · exact absurd hclosed (by decide)
    · exact absurd hended (by decide)
    · exact absurd (hsilent.2 0 (.inl rfl)) (by decide)
  · refine ⟨_, .cons (Nat.zero_le _) rfl .nil, trivial, fun h => ?_⟩
    exact absurd ((h _ rfl).2 (by decide)) (by decide)

end Watch

end EventLoop

end NsqClient
