import NsqClient.Lockstep
import NsqClient.Threads

set_option relaxedAutoImplicit false
set_option autoImplicit false

/-!
# Events of a batch

All registrations are edge-triggered, so an event that is dropped does not come back.  The loop
drops the rest of a batch when it leaves it by `break`: at the end of the file, at a read that would
block, and at the reply that switches to TLS.  A request to close, or the commands of the consumers,
can be lost there.  Otherwise whatever waits has an event to come.

## Main definitions

* `NsqClient.EventLoop.Breaks` — a read after which the rest of a batch is dropped.
* `NsqClient.EventLoop.Passed` — what an event does to the channels of the loop.
* `NsqClient.Threads.Announced` — what waits in the channels has an event to come.
* `NsqClient.Threads.Careful` — a step at which no event is lost.

## Main results

* `NsqClient.Threads.batch_loses_nothing` — in a run of careful steps everything that waits is
  announced each time the loop polls.
-/

namespace NsqClient

namespace EventLoop

variable {json : Json} {client : Client} {k : Stream} {io : Io}

/-! ## The rest of a batch -/

/-- The events of the batch that are left. -/
def rest (r : EventLoop) : List Event :=
  match r.phase with
  | .plain evts => evts
  | .tls evts => evts
  | _ => []

theorem rest_of_phase {r : EventLoop} {evts : List Event} (h : r.phase = phaseOf k evts) :
    r.rest = evts := by
  unfold rest
  cases k <;> rw [h] <;> rfl

/-- A batch has an event for a token. -/
def Has (token : Token) (evts : List Event) : Prop := ∃ e ∈ evts, e.token = token

theorem has_cons {token : Token} {e : Event} {evts : List Event} (h : Has token (e :: evts)) :
    e.token = token ∨ Has token evts := by
  obtain ⟨e', he', htoken⟩ := h
  rcases List.mem_cons.mp he' with rfl | he'
  · exact .inl htoken
  · exact .inr ⟨e', he', htoken⟩

theorem not_has_nil {token : Token} : ¬ Has token [] := by
  rintro ⟨e, he, -⟩
  cases he

/-- A read after which the rest of the batch is dropped: the end of the file, nothing to read, or
the reply that switches to TLS. -/
def Breaks (json : Json) (k : Stream) (r : EventLoop) (io : Io) : Prop :=
  io.read = .ok [] ∨ io.read = .error .wouldBlock ∨
    k = .plain ∧ r.conn.state = .identify ∧
      ∃ bs fs c rs resp cfg, io.read = .ok bs ∧ Conn.Fed k bs fs r.conn c ∧
        c.responses = rs ++ [.response resp] ∧ json.fromStr resp = some cfg ∧ cfg.tlsV1 = true

/-- What an event that does not end `run` does to the channels: the commands are written or they
stay, the requests to close stay, and the batch goes on or is dropped.  If the handshake is over
and there are commands, then either it was over before and nothing about the connection changed, or
the connection was registered for writing. -/
structure Passed (json : Json) (k : Stream) (io : Io) (e : Event) (evts : List Event)
    (r : EventLoop) (x : Except Leave EventLoop) (r' : EventLoop) : Prop where
  commands : r'.conn.r = r.conn.r ∨ r'.conn.r = []
  drained : e.token = .client → r'.conn.r = []
  closes : r'.rClose = r.rClose
  asked : e.token = .cmd → r.rClose = 0
  rest : r'.rest = evts ∨
    r'.rest = [] ∧ e = ⟨.connection, .readable⟩ ∧ Breaks json k r io
  started : r'.conn.state = .started → r'.conn.r ≠ [] →
    (r'.interest = .writable ∧ Threads.reregisters io e r x = true) ∨
    (r.conn.state = .started ∧
      (e.token = .cmd ∧ r'.rest = evts ∧ r'.interest = r.interest ∨
        e = ⟨.connection, .readable⟩ ∧ r'.rest = [])) ∨
    (e = ⟨.connection, .writable⟩ ∧ r.conn.needResponse = true)

/-- The rest of a batch, after an event. -/
theorem rest_after {evts : List Event} {r : EventLoop} :
    (after (phaseOf k) evts (.ok r)).rest = evts ∧
      (after (phaseOf k) evts (.error (.brk r))).rest = [] :=
  ⟨rest_of_phase (k := k) rfl, rest_of_phase (k := k) rfl⟩

/-- A readable connection that does not end `run`. -/
theorem passed_of_read {r : EventLoop} {x : Except Leave EventLoop}
    (hx : ReadOutcome json client k io r x) (evts : List Event) :
    Over (after (phaseOf k) evts x) ∨
      Passed json k io ⟨.connection, .readable⟩ evts r x (after (phaseOf k) evts x) := by
  -- a read that goes on registers the connection for writing
  have hok : ∀ {bs : List UInt8} {fs : List Frame} {c : Conn} {r' : EventLoop},
      Conn.Fed k bs fs r.conn c → r'.conn.r = c.r → r'.rClose = r.rClose →
      r'.interest = .writable →
      Passed json k io ⟨.connection, .readable⟩ evts r (.ok r')
        (after (phaseOf k) evts (.ok r')) := by
    intro bs fs c r' hfed hr hclose hinterest
    have hsame : c.r = r.conn.r := by rw [hfed.same]
    exact
      { commands := .inl (hr.trans hsame)
        drained := nofun
        closes := hclose
        asked := nofun
        rest := .inl rest_after.1
        started := fun _ _ => .inl ⟨hinterest, rfl⟩ }
  cases hx with
  | panicked _ _ _ => exact .inl ⟨_, rfl⟩
  | refused _ _ _ _ _ => exact .inl ⟨_, rfl⟩
  | noResponse _ _ _ _ => exact .inl ⟨_, rfl⟩
  | eof hread =>
    exact .inr
      { commands := .inl rfl
        drained := nofun
        closes := rfl
        asked := nofun
        rest := .inr ⟨rest_after.2, rfl, .inl hread⟩
        started := fun hst _ => .inr (.inl ⟨hst, .inr ⟨rfl, rest_after.2⟩⟩) }
  | wouldBlock hread =>
    exact .inr
      { commands := .inl rfl
        drained := nofun
        closes := rfl
        asked := nofun
        rest := .inr ⟨rest_after.2, rfl, .inr (.inl hread)⟩
        started := fun hst _ => .inr (.inl ⟨hst, .inr ⟨rfl, rest_after.2⟩⟩) }
  | started _ hfed _ => exact .inr (hok hfed rfl rfl rfl)
  | unasked _ hfed _ _ _ => exact .inr (hok hfed rfl rfl rfl)
  | producer _ hfed _ _ _ => exact .inr (hok hfed rfl rfl rfl)
  | @tlsSwitch _ _ c _ _ _ hread hfed hk hst hrs hjson htls =>
    have hsame : c.r = r.conn.r := by rw [hfed.same]
    exact .inr
      { commands := .inl hsame
        drained := nofun
        closes := rfl
        asked := nofun
        rest := .inr ⟨rest_after.2, rfl, .inr (.inr
          ⟨hk, hst, _, _, _, _, _, _, hread, hfed, hrs, hjson, htls⟩)⟩
        started := nofun }
  | answered _ hfed _ _ => exact .inr (hok hfed rfl rfl rfl)

/-- The command that ends the handshake needs no response. -/
theorem need_of_sends {config : Config} {st st' : State} {h : Handshake} {cmd : NsqCmd}
    {need : Bool} (hsends : Sends json client config k st h cmd st' need) (hst : st' = .started) :
    need = false := by
  cases hsends with
  | rdy => rfl
  | _ => cases hst

/-- A connection that is not readable and does not end `run`. -/
theorem passed_of_write {r : EventLoop} {x : Except Leave EventLoop}
    (hx : WriteOutcome json client k io r x) (evts : List Event) :
    Over (after (phaseOf k) evts x) ∨
      Passed json k io ⟨.connection, .writable⟩ evts r x (after (phaseOf k) evts x) := by
  cases hx with
  | @command h cmd st need _ hsends _ =>
    refine .inr
      { commands := .inl rfl
        drained := nofun
        closes := rfl
        asked := nofun
        rest := .inl rest_after.1
        started := fun hst _ => .inl ⟨?_, rfl⟩ }
    have hneed : need = false := need_of_sends hsends hst
    simp [after, hneed]
  | mute hmute =>
    refine .inr
      { commands := .inl rfl
        drained := nofun
        closes := rfl
        asked := nofun
        rest := .inl rest_after.1
        started := fun _ _ => ?_ }
    cases hneed : r.conn.needResponse with
    | true => exact .inr (.inr ⟨rfl, rfl⟩)
    | false => exact .inl ⟨by simp [after], rfl⟩
  | started _ hbeat hflushed =>
    have hnil := hflushed.conn
    refine .inr
      { commands := .inr (by simp only [after]; rw [hnil])
        drained := nofun
        closes := ?_
        asked := nofun
        rest := .inl rest_after.1
        started := fun _ hne => absurd (by simp only [after]; rw [hnil]) hne }
    cases hbeat <;> rfl
  | startedPanic _ _ _ _ _ => exact .inl ⟨_, rfl⟩

/-- An event that does not end `run`. -/
theorem passed_of_event {r : EventLoop} {e : Event} {x : Except Leave EventLoop}
    (hx : EventOutcome json client k io r e x) (evts : List Event) :
    Over (after (phaseOf k) evts x) ∨
      Passed json k io e evts r x (after (phaseOf k) evts x) := by
  cases hx with
  | close _ => exact .inl ⟨_, rfl⟩
  | noClose hclose =>
    exact .inr
      { commands := .inl rfl
        drained := nofun
        closes := rfl
        asked := fun _ => hclose
        rest := .inl rest_after.1
        started := fun hst _ => .inr (.inl ⟨hst, .inl ⟨rfl, rest_after.1, rfl⟩⟩) }
  | messages hflushed =>
    have hnil := hflushed.conn
    exact .inr
      { commands := .inr (by simp only [after]; rw [hnil])
        drained := fun _ => by simp only [after]; rw [hnil]
        closes := rfl
        asked := nofun
        rest := .inl rest_after.1
        started := fun _ hne => absurd (by simp only [after]; rw [hnil]) hne }
  | messagesPanic _ _ _ _ => exact .inl ⟨_, rfl⟩
  | readable hx => exact passed_of_read hx evts
  | writable hx => exact passed_of_write hx evts

end EventLoop

namespace Threads

open EventLoop
open Mutex (Place)

variable {n m : ℕ} {P : Type} {json : Json} {client : Client} {me : Party n m → P}
  {flag flag' : Mutex Bool P} {s s' : Crew n m}

/-! ## What waits -/

/-- A worker is in `Context::send`, between the two sends. -/
def Crew.Sending (s : Crew n m) : Prop :=
  (∃ i closing, s.consumers i = .inside (.sentinel closing)) ∨
    ∃ j, s.producers j = .inside .sentinel

/-- A sentinel is in the channel, or a worker has to send it. -/
def Crew.Due (s : Crew n m) : Prop := 0 < s.sentinels ∨ s.Sending

/-- A sentinel is pending that will make `CLIENT_TOKEN` ready: the waker has it, or will get it. -/
def Crew.Pending (s : Crew n m) : Prop :=
  s.waker = .outside .wake ∨ s.waker.left = false ∧ s.Due

/-- What waits in the channels has an event to come: a request to close, one for `CMD_TOKEN`, and
after the handshake the commands, one for `CLIENT_TOKEN` or one of the connection for writing. -/
def Announced (s : Crew n m) : Prop :=
  (0 < s.loop.rClose → s.cmdReady = true ∨ s.control = .outside .wake) ∧
    (s.loop.conn.state = .started → s.loop.conn.r ≠ [] →
      s.clientReady = true ∨ s.loop.interest = .writable ∧ s.armed = true ∨ s.Pending)

/-- The loop polls next, or switches to TLS. -/
def AtPoll (s : Crew n m) : Prop := s.loop.phase = .plain [] ∨ s.loop.phase = .tls []

/-- No event is lost: the loop does not leave a batch in which there is still an event for a request
to close that waits, or, after the handshake, for commands that wait; and while it runs the waker
does not find the flag false or the mutex poisoned. -/
def Careful (json : Json) (x : Mutex Bool (Party n m) × Crew n m) : Act n m → Prop
  | .loop (.event io) =>
    ∀ k e evts, x.2.loop.phase = phaseOf k (e :: evts) → e = ⟨.connection, .readable⟩ →
      Breaks json k x.2.loop io → (0 < x.2.loop.rClose → ¬ Has .cmd evts) ∧
        (x.2.loop.conn.state = .started → x.2.loop.conn.r ≠ [] → ¬ Has .client evts)
  | .waker => Over x.2.loop ∨
      (x.2.waker = .test → x.1.value = true) ∧ (x.2.waker = .lock → x.1.poisoned = false)
  | _ => True

/-- In the middle of a batch: what waits has an event to come, or one in the rest of the batch; and
the waker runs. -/
structure Announces (s : Crew n m) : Prop where
  closes : 0 < s.loop.rClose →
    s.cmdReady = true ∨ Has .cmd s.loop.rest ∨ s.control = .outside .wake
  commands : s.loop.conn.state = .started → s.loop.conn.r ≠ [] →
    s.clientReady = true ∨ Has .client s.loop.rest ∨
      (s.loop.interest = .writable ∧ (s.armed = true ∨ Has .connection s.loop.rest)) ∨ s.Pending
  waker : s.waker.left = false

/-- At the head of the loop nothing is left of the batch. -/
theorem Announces.announced (h : Announces s) (hpoll : AtPoll s) : Announced s := by
  have hrest : s.loop.rest = [] := by
    rcases hpoll with hphase | hphase
    · exact rest_of_phase (k := .plain) hphase
    · exact rest_of_phase (k := .tls) hphase
  have hcloses := h.closes
  have hcommands := h.commands
  rw [hrest] at hcloses hcommands
  refine ⟨fun hpos => ?_, fun hst hne => ?_⟩
  · rcases hcloses hpos with hready | hhas | hwake
    · exact .inl hready
    · exact absurd hhas not_has_nil
    · exact .inr hwake
  · rcases hcommands hst hne with hready | hhas | ⟨hinterest, harmed | hhas⟩ | hpending
    · exact .inl hready
    · exact absurd hhas not_has_nil
    · exact .inr (.inl ⟨hinterest, harmed⟩)
    · exact absurd hhas not_has_nil
    · exact .inr (.inr hpending)

/-! ## Steps of the threads -/

/-- A consumer that is not between the two sends moves. -/
theorem sending_setConsumer {i : Fin n} {x : Place Empty Consuming}
    (hi : ∀ closing, s.consumers i ≠ .inside (.sentinel closing)) (h : s.Sending) :
    (s.setConsumer i x).Sending := by
  rcases h with ⟨j, closing, hj⟩ | hproducer
  · refine .inl ⟨j, closing, ?_⟩
    have hne : j ≠ i := by
      rintro rfl
      exact hi closing hj
    simpa [Crew.setConsumer, hne] using hj
  · exact .inr hproducer

/-- A producer that is not between the two sends moves. -/
theorem sending_setProducer {j : Fin m} {x : Place Empty Producing}
    (hj : s.producers j ≠ .inside .sentinel) (h : s.Sending) :
    (s.setProducer j x).Sending := by
  rcases h with hconsumer | ⟨i, hi⟩
  · exact .inl hconsumer
  · refine .inr ⟨i, ?_⟩
    have hne : i ≠ j := by
      rintro rfl
      exact hj hi
    simpa [Crew.setProducer, hne] using hi

/-- What a step of a worker does: it leaves the other threads and the readiness alone; a sentinel
that was due still is; and the loop is as before, or a command was sent for which a sentinel is
due. -/
structure Worked (s s' : Crew n m) : Prop where
  same : s' = { s with
    loop := s'.loop
    taken := s'.taken
    received := s'.received
    consumers := s'.consumers
    producers := s'.producers
    sentinels := s'.sentinels }
  due : s.Due → s'.Due
  loop : s'.loop = s.loop ∨ s'.Due ∧ ∃ cmd, s'.loop = (s.push cmd).loop

/-- A step of a consumer. -/
theorem worked_of_consumer {i : Fin n} {what : Do} (h : ConsumerStep me flag s i what flag' s') :
    Worked s s' := by
  have hmove : ∀ {x y : Place Empty Consuming}, s.consumers i = y →
      (∀ closing, y ≠ .inside (.sentinel closing)) → s.Due → (s.setConsumer i x).Due := by
    rintro x y rfl hy (hpos | hsending)
    · exact .inl hpos
    · exact .inr (sending_setConsumer hy hsending)
  cases h with
  | closed hx _ _ => exact ⟨rfl, hmove hx nofun, .inl rfl⟩
  | short hx _ _ _ => exact ⟨rfl, hmove hx nofun, .inl rfl⟩
  | message hx _ _ _ => exact ⟨rfl, hmove hx nofun, .inl rfl⟩
  | returned hx => exact ⟨rfl, hmove hx nofun, .inl rfl⟩
  | @sends closing cmd hx =>
    have hsending : ((s.push cmd).setConsumer i (.inside (.sentinel closing))).Sending :=
      .inl ⟨i, closing, by simp [Crew.setConsumer]⟩
    exact ⟨rfl, fun _ => .inr hsending, .inr ⟨.inr hsending, cmd, rfl⟩⟩
  | sentinel hx => exact ⟨rfl, fun _ => .inl (Nat.succ_pos _), .inl rfl⟩
  | lock hadvance =>
    refine ⟨rfl, hmove rfl ?_, .inl rfl⟩
    intro closing hx
    rw [hx] at hadvance
    cases hadvance

/-- A step of a producer. -/
theorem worked_of_producer {j : Fin m} {what : Do} (h : ProducerStep me flag s j what flag' s') :
    Worked s s' := by
  cases h with
  | @publish cmd hx =>
    have hsending : ((s.push cmd).setProducer j (.inside .sentinel)).Sending :=
      .inr ⟨j, by simp [Crew.setProducer]⟩
    exact ⟨rfl, fun _ => .inr hsending, .inr ⟨.inr hsending, cmd, rfl⟩⟩
  | sentinel hx => exact ⟨rfl, fun _ => .inl (Nat.succ_pos _), .inl rfl⟩
  | lock hadvance =>
    refine ⟨rfl, ?_, .inl rfl⟩
    rintro (hpos | hsending)
    · exact .inl hpos
    · refine .inr (sending_setProducer ?_ hsending)
      intro hx
      rw [hx] at hadvance
      cases hadvance

/-- A step of a worker keeps what waits announced. -/
theorem announces_of_worked (h : Announces s) (hworked : Worked s s') : Announces s' := by
  have hcmd : s'.cmdReady = s.cmdReady := by rw [hworked.same]
  have hclient : s'.clientReady = s.clientReady := by rw [hworked.same]
  have hcontrol : s'.control = s.control := by rw [hworked.same]
  have harmed : s'.armed = s.armed := by rw [hworked.same]
  have hwaker : s'.waker = s.waker := by rw [hworked.same]
  refine ⟨?_, ?_, by rw [hwaker]; exact h.waker⟩
  · have hcloses := h.closes
    rw [hcmd, hcontrol]
    rcases hworked.loop with hloop | ⟨-, cmd, hloop⟩
    · rw [hloop]
      exact hcloses
    · rw [hloop]
      exact hcloses
  · rcases hworked.loop with hloop | ⟨hnow, -⟩
    · rw [hloop, hclient, harmed]
      intro hst hne
      rcases h.commands hst hne with hready | hhas | hinterest | hwake | ⟨hleft, hdue⟩
      · exact .inl hready
      · exact .inr (.inl hhas)
      · exact .inr (.inr (.inl hinterest))
      · exact .inr (.inr (.inr (.inl (hwaker.trans hwake))))
      · exact .inr (.inr (.inr (.inr ⟨hwaker ▸ hleft, hworked.due hdue⟩)))
    · exact fun _ _ => .inr (.inr (.inr (.inr ⟨hwaker ▸ h.waker, hnow⟩)))

/-- A step of the waker keeps what waits announced, if the waker goes on. -/
theorem announces_of_waker (h : Announces s) (hstep : WakerStep me flag s flag' s')
    (hvalue : s.waker = .test → flag.value = true)
    (hpoisoned : s.waker = .lock → flag.poisoned = false) : Announces s' := by
  cases hstep with
  | recv hx hpos =>
    refine ⟨h.closes, fun hst hne => ?_, rfl⟩
    rcases h.commands hst hne with hready | hhas | hinterest | -
    · exact .inl hready
    · exact .inr (.inl hhas)
    · exact .inr (.inr (.inl hinterest))
    · exact .inr (.inr (.inr (.inl rfl)))
  | wake hx => exact ⟨h.closes, fun _ _ => .inl rfl, rfl⟩
  | @lock _ x hadvance =>
    have hmove : s.waker ≠ .outside .wake ∧ x.left = false := by
      have hleft := h.waker
      generalize s.waker = y at hadvance hvalue hpoisoned hleft
      cases hadvance with
      | panic _ hp =>
        rw [hpoisoned rfl] at hp
        cases hp
      | stop hv =>
        rw [hvalue rfl] at hv
        cases hv
      | leave => cases hleft
      | acquire _ _ => exact ⟨nofun, rfl⟩
      | go _ => exact ⟨nofun, rfl⟩
      | unlock => exact ⟨nofun, rfl⟩
    refine ⟨h.closes, fun hst hne => ?_, hmove.2⟩
    rcases h.commands hst hne with hready | hhas | hinterest | hwake | ⟨-, hdue⟩
    · exact .inl hready
    · exact .inr (.inl hhas)
    · exact .inr (.inr (.inl hinterest))
    · exact absurd hwake hmove.1
    · exact .inr (.inr (.inr (.inr ⟨hmove.2, hdue⟩)))

/-- A step of the control thread keeps what waits announced. -/
theorem announces_of_control (h : Announces s) (hstep : ControlStep me flag s flag' s') :
    Announces s' := by
  cases hstep with
  | recv hx _ =>
    refine ⟨fun hpos => ?_, h.commands, h.waker⟩
    rcases h.closes hpos with hready | hhas | hwake
    · exact .inl hready
    · exact .inr (.inl hhas)
    · rw [hx] at hwake
      cases hwake
  | deaf hx _ _ =>
    refine ⟨fun hpos => ?_, h.commands, h.waker⟩
    rcases h.closes hpos with hready | hhas | hwake
    · exact .inl hready
    · exact .inr (.inl hhas)
    · rw [hx] at hwake
      cases hwake
  | send hx => exact ⟨fun _ => .inr (.inr rfl), h.commands, h.waker⟩
  | wake hx => exact ⟨fun _ => .inl rfl, h.commands, h.waker⟩
  | lock hadvance =>
    refine ⟨fun hpos => ?_, h.commands, h.waker⟩
    rcases h.closes hpos with hready | hhas | hwake
    · exact .inl hready
    · exact .inr (.inl hhas)
    · rw [hwake] at hadvance
      cases hadvance

/-! ## Steps of the loop -/

/-- A batch that `poll` delivers. -/
theorem has_of_delivers {token : Token} {evts : List Event} {now : ℕ}
    (h : delivers token (.poll evts now) = true) : Has token evts := by
  simpa [delivers, Has] using h

/-- What is ready is so after `poll`, or it is in the batch. -/
theorem ready_or_has {token : Token} {evts : List Event} {now : ℕ} {ready : Bool}
    (h : ready = true) : (ready && !delivers token (.poll evts now)) = true ∨ Has token evts := by
  cases hd : delivers token (.poll evts now) with
  | true => exact .inr (has_of_delivers hd)
  | false => exact .inl (by simp [h])

/-- A return of `poll` keeps what waits announced. -/
theorem announces_of_poll (h : Announces s) (hrest : s.loop.rest = []) {r : EventLoop}
    {evts : List Event} {now : ℕ} {registered : Bool} (hevts : r.rest = evts)
    (hclose : r.rClose = s.loop.rClose) (hstate : r.conn.state = s.loop.conn.state)
    (hcmds : r.conn.r = s.loop.conn.r) (hinterest : r.interest = s.loop.interest) :
    Announces { s with
      loop := r
      clientReady := s.clientReady && !delivers .client (.poll evts now)
      cmdReady := s.cmdReady && !delivers .cmd (.poll evts now)
      armed := s.armed && !delivers .connection (.poll evts now) || registered } := by
  have hcloses := h.closes
  have hcommands := h.commands
  rw [hrest] at hcloses hcommands
  refine ⟨fun hpos => ?_, fun hst hne => ?_, h.waker⟩
  · rw [hclose] at hpos
    simp only [hevts]
    rcases hcloses hpos with hready | hhas | hwake
    · rcases ready_or_has hready with hready | hhas
      · exact .inl hready
      · exact .inr (.inl hhas)
    · exact absurd hhas not_has_nil
    · exact .inr (.inr hwake)
  · rw [hstate] at hst
    rw [hcmds] at hne
    simp only [hevts, hinterest]
    rcases hcommands hst hne with hready | hhas | ⟨hwrite, harmed | hhas⟩ | hpending
    · rcases ready_or_has hready with hready | hhas
      · exact .inl hready
      · exact .inr (.inl hhas)
    · exact absurd hhas not_has_nil
    · rcases ready_or_has harmed with harmed | hhas
      · exact .inr (.inr (.inl ⟨hwrite, .inl (by rw [harmed, Bool.true_or])⟩))
      · exact .inr (.inr (.inl ⟨hwrite, .inr hhas⟩))
    · exact absurd hhas not_has_nil
    · exact .inr (.inr (.inr hpending))

/-- An event keeps what waits announced, if it does not end `run` and loses no event.

**Proof sketch.**  If the batch goes on, what had an event in it still has, unless it was the event
that is handled: then no request to close waits, or the commands were written.  If it is dropped,
no event for what waits was lost, and the connection was not registered for writing.  A connection
that was handled is registered again, for writing if the handshake ended now. -/
theorem announces_of_event (h : Announces s) {k : Stream} {io : Io} {e : Event}
    {evts : List Event} {x : Except Leave EventLoop} {r : EventLoop} {st : Stage}
    (hat : At json client s.loop st) (hrest : s.loop.rest = e :: evts)
    (hpassed : Passed json k io e evts s.loop x r)
    (hmio : e.token = .connection → e.readiness = s.loop.interest)
    (hcareful : e = ⟨.connection, .readable⟩ → Breaks json k s.loop io →
      (0 < s.loop.rClose → ¬ Has .cmd evts) ∧
        (s.loop.conn.state = .started → s.loop.conn.r ≠ [] → ¬ Has .client evts)) :
    Announces { s with loop := r, armed := s.armed || reregisters io e s.loop x } := by
  have hcloses := h.closes
  have hcommands := h.commands
  rw [hrest] at hcloses hcommands
  refine ⟨fun hpos => ?_, fun hst hne => ?_, h.waker⟩
  · have hpos : 0 < s.loop.rClose := hpassed.closes ▸ hpos
    rcases hcloses hpos with hready | hhas | hwake
    · exact .inl hready
    · refine .inr (.inl ?_)
      have hhas : Has .cmd evts := by
        rcases has_cons hhas with htoken | hhas
        · rw [hpassed.asked htoken] at hpos
          cases hpos
        · exact hhas
      rcases hpassed.rest with hgoes | ⟨-, he, hbreaks⟩
      · simp only [hgoes]
        exact hhas
      · exact absurd hhas ((hcareful he hbreaks).1 hpos)
    · exact .inr (.inr hwake)
  · rcases hpassed.started hst hne with
      ⟨hinterest, hregistered⟩ | ⟨hbefore, hquiet⟩ | ⟨rfl, hneed⟩
    · exact .inr (.inr (.inl ⟨hinterest, .inl (by simp [hregistered])⟩))
    · have hcmds : s.loop.conn.r ≠ [] := by
        rcases hpassed.commands with hsame | hnil
        · exact hsame ▸ hne
        · exact absurd hnil hne
      have hclient : Has .client (e :: evts) → Has .client evts := by
        intro hhas
        rcases has_cons hhas with htoken | hhas
        · exact absurd (hpassed.drained htoken) hne
        · exact hhas
      rcases hquiet with ⟨htoken, hgoes, hinterest⟩ | ⟨he, hdropped⟩
      · simp only [hgoes, hinterest]
        rcases hcommands hbefore hcmds with hready | hhas | ⟨hwrite, harmed | hhas⟩ | hpending
        · exact .inl hready
        · exact .inr (.inl (hclient hhas))
        · exact .inr (.inr (.inl ⟨hwrite, .inl (by simp [harmed])⟩))
        · rcases has_cons hhas with hconn | hhas
          · rw [htoken] at hconn
            cases hconn
          · exact .inr (.inr (.inl ⟨hwrite, .inr hhas⟩))
        · exact .inr (.inr (.inr hpending))
      · have hread : s.loop.interest = .readable := by
          rw [he] at hmio
          exact (hmio rfl).symm
        rcases hcommands hbefore hcmds with hready | hhas | ⟨hwrite, -⟩ | hpending
        · exact .inl hready
        · rcases hpassed.rest with hgoes | ⟨-, he, hbreaks⟩
          · rw [hdropped] at hgoes
            exact absurd (hgoes ▸ hclient hhas) not_has_nil
          · exact absurd (hclient hhas) ((hcareful he hbreaks).2 hbefore hcmds)
        · rw [hread] at hwrite
          cases hwrite
        · exact .inr (.inr (.inr hpending))
    · -- the connection is not registered for writing while a response is due
      have hwaiting : st.waiting = true := by rw [← hat.needResponse, hneed]
      have hstage : st ≠ .started := by
        rintro rfl
        cases hwaiting
      have hinterest := hat.interest hstage
      rw [hwaiting, ← hmio rfl] at hinterest
      cases hinterest

/-- The event of a step that registers the connection. -/
theorem registers_event {r : EventLoop} {k : Stream} {io : Io} {e : Event} {evts : List Event}
    (hphase : r.phase = phaseOf k (e :: evts)) : registers json client r (.event io) =
      reregisters io e r (onEvent json client k io e r) := by
  cases k <;> simp [registers, hphase, phaseOf]

/-- While the connection switches to TLS no event is left of a batch. -/
theorem rest_of_switch {r : EventLoop}
    (hphase : r.phase = .plain [] ∧ r.tls = 1 ∨ r.phase = .handshaking) : r.rest = [] := by
  rcases hphase with ⟨hphase, -⟩ | hphase
  · exact rest_of_phase (k := .plain) hphase
  · simp [EventLoop.rest, hphase]

/-- A step of the loop keeps what waits announced, if it does not end `run` and loses no event. -/
theorem announces_of_loop (h : Announces s) {l : Label} (hstep : LoopStep json client s l s')
    {st : Stage} (hat : At json client s.loop st) (hmio : EventLoop.Mio s.loop l)
    {lock : Mutex Bool (Party n m)} (hcareful : Careful json (lock, s) (.loop l))
    (hrunning : ¬ Over s'.loop) : Announces s' := by
  have hloop := hstep.step
  rw [hstep.same]
  generalize s'.loop = r at hloop hrunning ⊢
  cases l with
  | send cmd => exact absurd rfl (hstep.inner.1 cmd)
  | close => exact absurd rfl hstep.inner.2
  | pollFailed =>
    cases step_outcome hloop with
    | pollFailed => exact absurd ⟨_, rfl⟩ hrunning
  | poll evts now =>
    cases step_outcome hloop with
    | pollPlain hphase _ _ =>
      exact announces_of_poll h (rest_of_phase (k := .plain) hphase) rfl rfl rfl rfl rfl
    | pollTls hphase =>
      exact announces_of_poll h (rest_of_phase (k := .tls) hphase) rfl rfl rfl rfl rfl
  | tls answer =>
    cases step_outcome hloop with
    | tls hphase =>
      have hstate := hat.not_started_of_switch hphase
      have hrest := rest_of_switch hphase
      have hcloses := h.closes
      rw [hrest] at hcloses
      have hclose : 0 < s.loop.rClose → s.cmdReady = true ∨ s.control = .outside .wake := by
        intro hpos
        rcases hcloses hpos with hready | hhas | hwake
        · exact .inl hready
        · exact absurd hhas not_has_nil
        · exact .inr hwake
      have hkeeps : ∀ {r' : EventLoop}, r'.rClose = s.loop.rClose →
          r'.conn.state = s.loop.conn.state → Announces { s with
            loop := r'
            clientReady := s.clientReady && !delivers .client (.tls answer)
            cmdReady := s.cmdReady && !delivers .cmd (.tls answer)
            armed := s.armed && !delivers .connection (.tls answer) ||
              registers json client s.loop (.tls answer) } := by
        intro r' hsame hstate'
        refine ⟨fun hpos => ?_, fun hst => ?_, h.waker⟩
        · rcases hclose (hsame ▸ hpos) with hready | hwake
          · exact .inl (by simp [hready, delivers])
          · exact .inr (.inr hwake)
        · exact absurd (hstate'.symm.trans hst) hstate
      cases answer with
      | noConnector => exact absurd ⟨_, rfl⟩ hrunning
      | failure => exact absurd ⟨_, rfl⟩ hrunning
      | connected => exact hkeeps rfl rfl
      | wouldBlock => exact hkeeps rfl rfl
  | event io =>
    obtain ⟨k, e, evts, hphase, rfl⟩ := exists_event_of_step hloop
    rcases passed_of_event (onEvent_outcome json client k io e s.loop) evts with
      hover | hpassed
    · exact absurd hover hrunning
    · have hevent := announces_of_event h hat (rest_of_phase hphase) hpassed
        (hmio e (nextEvent_of_phase hphase)) (hcareful k e evts hphase)
      simpa [registers_event hphase, delivers] using hevent

/-! ## Runs -/

theorem announces_start (n m : ℕ) (client : Client) (alloc : Alloc) (clock : ℕ) :
    Announces (Crew.start n m client alloc clock) :=
  ⟨nofun, nofun, rfl⟩

/-- Careful steps keep what waits announced, as long as `run` is not over. -/
theorem announces_step {x x' : Mutex Bool (Party n m) × Crew n m} {a : Act n m}
    (h : Announces x.2) {st : Stage} (hat : At json client x.2.loop st)
    (hrunning : ¬ Over x.2.loop) (hrunning' : ¬ Over x'.2.loop) (hmio : Mio x a)
    (hcareful : Careful json x a) (hstep : machine json client x a = some x') :
    Announces x'.2 := by
  cases a with
  | loop l =>
    obtain ⟨s, hloop, heq⟩ := Option.map_eq_some_iff.mp hstep
    cases heq
    exact announces_of_loop h (loop_step hloop) hat hmio hcareful hrunning'
  | tell msg =>
    cases tell_step hstep
    exact ⟨h.closes, h.commands, h.waker⟩
  | hangUp =>
    cases hstep
    exact ⟨h.closes, h.commands, h.waker⟩
  | consumer i what => exact announces_of_worked h (worked_of_consumer (consumer_step hstep))
  | producer j what => exact announces_of_worked h (worked_of_producer (producer_step hstep))
  | waker =>
    obtain ⟨hvalue, hpoisoned⟩ := hcareful.resolve_left hrunning
    exact announces_of_waker h (waker_step hstep) hvalue hpoisoned
  | control => exact announces_of_control h (control_step hstep)

/-- Nothing is lost in a batch.  Take any run of the client, with any numbers of consumer and
producer threads, batches in any order and any results of reads and writes, as long as each step is
careful.  Each time the plain or the TLS loop polls, a request to close that waits has an event for
`CMD_TOKEN` to come, and after the handshake the commands that wait have one for `CLIENT_TOKEN` or
one of the connection for writing.

**Proof sketch.**  In the middle of a batch what waits has an event to come or one in the rest of
the batch (`Announces`); every step keeps that, and at the head of the loop nothing is left of the
batch. -/
theorem batch_loses_nothing {alloc : Alloc} {clock : ℕ} {as : List (Act n m)}
    {x : Mutex Bool (Party n m) × Crew n m}
    (hrun : Machine.Run (machine json client) (fun x a => Mio x a ∧ Careful json x a)
      (start n m client alloc clock) as x) (hpoll : AtPoll x.2) : Announced x.2 := by
  have hboth : Over x.2.loop ∨ Announces x.2 := by
    clear hpoll
    induction hrun with
    | nil => exact .inr (announces_start n m client alloc clock)
    | @snoc as x x' a hrun hok hstep ih =>
      by_cases hover : Over x.2.loop
      · rcases loop_of_step hstep with hsame | ⟨l, -, hl⟩
        · rw [hsame]
          exact .inl hover
        · exact .inl (over_of_step hover hl)
      · obtain ⟨ls, hloop⟩ := loop_run (fun _ _ hok => hok.1) hrun
        have hrunning : ¬ Crashed x.2.loop := by
          rintro (⟨p, hcrashed⟩ | hcrashed)
          · exact hover ⟨_, hcrashed⟩
          · exact hover ⟨_, hcrashed⟩
        obtain ⟨st, -, hat⟩ := at_run (at_start json client [] alloc clock) hloop hrunning
        by_cases hrunning' : Over x'.2.loop
        · exact .inl hrunning'
        · exact .inr (announces_step (ih.resolve_left hover) hat hover hrunning' hok.1 hok.2 hstep)
  rcases hboth with ⟨halt, hdone⟩ | h
  · rcases hpoll with hphase | hphase
    · rw [hdone] at hphase
      cases hphase
    · rw [hdone] at hphase
      cases hphase
  · exact h.announced hpoll

/-- A simple way to lose no event: every event is the last of its batch, or it is handled after the
handshake and its read brings bytes; and the waker finds the flag true. -/
def Simple (x : Mutex Bool (Party n m) × Crew n m) : Act n m → Prop
  | .loop (.event io) => x.2.loop.rest.length ≤ 1 ∨
      x.2.loop.conn.state = .started ∧ ∃ b bs, io.read = .ok (b :: bs)
  | .waker => x.1.value = true ∧ x.1.poisoned = false
  | _ => True

theorem Simple.careful {x : Mutex Bool (Party n m) × Crew n m} {a : Act n m} (h : Simple x a) :
    Careful json x a := by
  unfold Careful
  split
  · intro k e evts hphase _ hbreaks
    rcases h with hlast | ⟨hstate, b, bs, hread⟩
    · rw [rest_of_phase hphase, List.length_cons] at hlast
      rw [List.length_eq_zero_iff.mp (by omega : evts.length = 0)]
      exact ⟨fun _ => not_has_nil, fun _ _ => not_has_nil⟩
    · rcases hbreaks with hnil | hblock | ⟨-, hidentify, -⟩
      · rw [hread] at hnil
        cases hnil
      · rw [hread] at hblock
        cases hblock
      · rw [hstate] at hidentify
        cases hidentify
  · exact .inr ⟨fun _ => h.1, fun _ => h.2⟩
  · trivial

instance (x : Mutex Bool (Party n m) × Crew n m) : (a : Act n m) → Decidable (Simple x a)
  | .loop (.event io) =>
    have : Decidable (∃ b bs, io.read = .ok (b :: bs)) :=
      match hread : io.read with
      | .ok (b :: bs) => .isTrue ⟨b, bs, rfl⟩
      | .ok [] => .isFalse (by simp)
      | .error _ => .isFalse (by simp)
    inferInstanceAs (Decidable (_ ∨ _))
  | .waker => inferInstanceAs (Decidable (_ ∧ _))
  | .loop (.poll _ _) | .loop .pollFailed | .loop (.tls _) | .loop (.send _) | .loop .close
  | .tell _ | .hangUp | .consumer _ _ | .producer _ _ | .control => .isTrue trivial

set_option maxRecDepth 4000 in
/-- A handler sends a command, and one batch brings its wake-up behind a read.  Afterwards the
handler is in the middle of sending another one, and the control thread is about to announce a
request to close. -/
theorem batch_loses_nothing_close :
    ∃ x : Mutex Bool (Party 1 0) × Crew 1 0, AtPoll x.2 ∧ 0 < x.2.loop.rClose ∧
      x.2.loop.conn.state = .started ∧ x.2.loop.conn.r ≠ [] ∧ Announced x.2 := by
  have hexec : Machine.exec (machine serde ⟨"t", "c", none, 1, .default none⟩)
      (fun x a => Mio x a ∧ Simple x a)
      (start 1 0 ⟨"t", "c", none, 1, .default none⟩ .exact 0)
      ((joining ++ writing ++ receiving "0123456789abcdef" [] ++ writing).map .loop ++
        [.consumer 0 .next, .consumer 0 .next, .consumer 0 .next,
          .consumer 0 (.send (NsqCmd.touch "0123456789abcdef").asCmd), .consumer 0 .next,
          .waker, .waker,
          .loop (.poll [⟨.connection, .readable⟩, ⟨.client, .writable⟩] 0),
          .loop (.event ⟨.ok (Frame.ofPayload 2 (message "0123456789abcdeg" [])).wire,
            fun _ => .ok 0, true⟩),
          .loop (.event ⟨.ok [], fun _ => .ok 1000, true⟩),
          .consumer 0 (.send (NsqCmd.fin "0123456789abcdef").asCmd),
          .tell .close, .control, .control]) = some _ := rfl
  have hrun := (Machine.Run.of_exec hexec).mono fun x a h =>
    (⟨h.1, h.2.careful⟩ : Mio x a ∧ Careful serde x a)
  exact ⟨_, .inl rfl, by decide, rfl, by decide, batch_loses_nothing hrun (.inl rfl)⟩

set_option maxRecDepth 4000 in
/-- A request to close is lost behind the end of the file: the loop polls, and there is no event for
the request to come. -/
theorem batch_loses_close :
    ∃ x : Mutex Bool (Party 1 0) × Crew 1 0,
      Machine.Run (machine serde ⟨"t", "c", none, 1, .default none⟩) Mio
        (start 1 0 ⟨"t", "c", none, 1, .default none⟩ .exact 0)
        (writing.map .loop ++ [.tell .close, .control, .control, .control,
          .loop (.poll [⟨.connection, .readable⟩, ⟨.cmd, .readable⟩] 0),
          .loop (.event ⟨.ok [], fun _ => .ok 0, true⟩)]) x ∧
      AtPoll x.2 ∧ ¬ Announced x.2 := by
  refine ⟨_, Machine.Run.of_exec rfl, .inl rfl, fun h => ?_⟩
  rcases h.1 (by decide) with hready | hwake
  · exact absurd hready (by decide)
  · exact absurd hwake (by decide)

end Threads

end NsqClient
