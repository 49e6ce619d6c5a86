import NsqClient.Delivery
import NsqClient.Lockstep

set_option relaxedAutoImplicit false
set_option autoImplicit false

/-!
# Heartbeats

A read that takes a heartbeat sets a flag, and registers the connection for writing.  The branch of
a writable connection looks at the flag, writes `NOP` and registers the connection for reading.
So there is one `NOP` between that read and the next one, whatever else is written in between.

## Main definitions

* `NsqClient.OneNop` — one `NOP` was written, and with what result.
* `NsqClient.EventLoop.TakesHeartbeat` — a step that reads a heartbeat.
* `NsqClient.EventLoop.Received` — a heartbeat was received, and since then no `NOP` written.
* `NsqClient.EventLoop.Heeds` — where the event loop is after a heartbeat.

## Main results

* `NsqClient.EventLoop.heartbeats_answered` — a heartbeat is answered once before the next read, and
  there is no `NOP` without a heartbeat.
-/

namespace NsqClient

/-- Every write took everything it was offered. -/
def Whole (log : List Obs) : Prop := ∀ w ∈ log.filterMap writeOf, TakesAll w.2.2 w.2.1

instance (log : List Obs) : Decidable (Whole log) :=
  inferInstanceAs (Decidable (∀ w ∈ log.filterMap writeOf, TakesAll w.2.2 w.2.1))

/-- From `log` to `log'` the loop wrote `NOP` once, to the stream `k` and with the result `res`. -/
def OneNop (k : Stream) (res : WriteResult) (log log' : List Obs) : Prop :=
  ∃ a b, log' = log ++ (a ++ .nop :: .wrote k (cmdBytes NsqCmd.nop.asCmd) res :: b) ∧
    (∀ o ∈ a, o ≠ .nop) ∧ ∀ o ∈ b, o ≠ .nop

/-- What is logged before. -/
theorem OneNop.after {k : Stream} {res : WriteResult} {log log₁ log₂ : List Obs}
    (hsince : Since (· ≠ .nop) log log₁) (h : OneNop k res log₁ log₂) : OneNop k res log log₂ := by
  obtain ⟨tail, rfl, htail⟩ := hsince
  obtain ⟨a, b, rfl, ha, hb⟩ := h
  refine ⟨tail ++ a, b, by simp, ?_, hb⟩
  intro o ho
  rcases List.mem_append.mp ho with ho | ho
  · exact htail o ho
  · exact ha o ho

/-- What is logged afterwards. -/
theorem OneNop.before {k : Stream} {res : WriteResult} {log log₁ log₂ : List Obs}
    (h : OneNop k res log log₁) (hsince : Since (· ≠ .nop) log₁ log₂) : OneNop k res log log₂ := by
  obtain ⟨a, b, rfl, ha, hb⟩ := h
  obtain ⟨tail, rfl, htail⟩ := hsince
  refine ⟨a, b ++ tail, by simp, ha, ?_⟩
  intro o ho
  rcases List.mem_append.mp ho with ho | ho
  · exact hb o ho
  · exact htail o ho

/-- If every write took everything, so did that of `NOP`. -/
theorem OneNop.takesAll {k : Stream} {res : WriteResult} {log log' : List Obs}
    (h : OneNop k res log log') (hwhole : Whole log') :
    TakesAll res (cmdBytes NsqCmd.nop.asCmd) := by
  obtain ⟨a, b, rfl, -, -⟩ := h
  refine hwhole (k, cmdBytes NsqCmd.nop.asCmd, res) ?_
  simp [writeOf]

namespace EventLoop

variable {json : Json} {client : Client} {k : Stream} {io : Io}

/-- The next event is a readable connection. -/
def Reads (r : EventLoop) : Label → Prop
  | .event _ => r.nextEvent = some ⟨.connection, .readable⟩
  | _ => False

/-- The next event is a writable connection. -/
def Writes (r : EventLoop) : Label → Prop
  | .event _ => r.nextEvent = some ⟨.connection, .writable⟩
  | _ => False

instance (r : EventLoop) : (l : Label) → Decidable (Reads r l)
  | .event _ => inferInstanceAs (Decidable (r.nextEvent = some ⟨.connection, .readable⟩))
  | .send _ => .isFalse id
  | .close => .isFalse id
  | .poll _ _ => .isFalse id
  | .pollFailed => .isFalse id
  | .tls _ => .isFalse id

/-- The batch when the next event is a readable connection. -/
theorem phase_of_reads {r : EventLoop} {l : Label} (h : Reads r l) :
    ∃ io k evts, l = .event io ∧ r.phase = phaseOf k (⟨.connection, .readable⟩ :: evts) := by
  cases l with
  | event io =>
    obtain ⟨k, evts, hphase⟩ := phase_of_nextEvent h
    exact ⟨io, k, evts, rfl, hphase⟩
  | _ => exact h.elim

/-- The batch when the next event is a writable connection. -/
theorem phase_of_writes {r : EventLoop} {l : Label} (h : Writes r l) :
    ∃ io k evts, l = .event io ∧ r.phase = phaseOf k (⟨.connection, .writable⟩ :: evts) := by
  cases l with
  | event io =>
    obtain ⟨k, evts, hphase⟩ := phase_of_nextEvent h
    exact ⟨io, k, evts, rfl, hphase⟩
  | _ => exact h.elim

/-- The loop over the stream `k` reads, and a heartbeat is among the frames `decode` takes. -/
def TakesHeartbeat (k : Stream) (r : EventLoop) (l : Label) : Prop :=
  ∃ io evts bs fs c, l = .event io ∧ r.phase = phaseOf k (⟨.connection, .readable⟩ :: evts) ∧
    io.read = .ok bs ∧ Conn.Fed k bs fs r.conn c ∧ ∃ f ∈ fs, f.isHeartbeat = true

/-- A read that sets the flag takes a heartbeat. -/
theorem takesHeartbeat_of_read {r : EventLoop} {evts : List Event} {n : ℕ} {c : Conn}
    (hphase : r.phase = phaseOf k (⟨.connection, .readable⟩ :: evts))
    (hread : r.conn.read k io.read = .ok (.ok n, c)) (hclear : r.conn.heartbeat = false)
    (hset : c.heartbeat = true) : TakesHeartbeat k r (.event io) := by
  rcases Conn.read_ok hread with ⟨-, -, rfl⟩ | ⟨bs, fs, hbs, -, hfed⟩
  · rw [hclear] at hset
    cases hset
  · rw [hfed.heartbeat, hclear, Bool.false_or, List.any_eq_true] at hset
    exact ⟨io, evts, bs, fs, c, rfl, hphase, hbs, hfed, hset⟩

/-- In the run `ls` from `r₀` to `r` a heartbeat was received, and since then no `NOP` was
written. -/
def Received (json : Json) (client : Client) (r₀ : EventLoop) (ls : List Label) (r : EventLoop) :
    Prop :=
  ∃ k ls₁ l ls₂ r₁ r₂, ls = ls₁ ++ l :: ls₂ ∧
    Machine.Run (step json client) Machine.anything r₀ ls₁ r₁ ∧ TakesHeartbeat k r₁ l ∧
    step json client r₁ l = some r₂ ∧
    Machine.Run (step json client) Machine.anything r₂ ls₂ r ∧
    Since (· ≠ .nop) r₁.conn.log r.conn.log

/-! ## What an event does to the flag -/

/-- Where an event leads: on in the batch, to the head of the loop, or to the end. -/
theorem after_phase (next : List Event → Phase) (evts : List Event) (x : Except Leave EventLoop) :
    Over (after next evts x) ∨ ∃ evts', (after next evts x).phase = next evts' := by
  rcases x with (r | ⟨h, r⟩) | r
  · exact .inr ⟨[], rfl⟩
  · exact .inl ⟨h, rfl⟩
  · exact .inr ⟨evts, rfl⟩

/-- What `write_messages` logs are not answers to heartbeats. -/
theorem since_of_flushed {cmds : List Cmd} {c c' : Conn} (h : Conn.Flushed k cmds c c') :
    Since (· ≠ .nop) c.log c'.log := by
  refine h.log.mono ?_
  rintro o (⟨cmd, -, rfl⟩ | ⟨offered, res, rfl⟩) <;> exact nofun

/-- An event that does not concern the connection. -/
theorem idle_event {r : EventLoop} {e : Event} {x : Except Leave EventLoop}
    (htoken : e.token ≠ .connection) (hx : EventOutcome json client k io r e x)
    (next : List Event → Phase) (evts : List Event) :
    (after next evts x).conn.heartbeat = r.conn.heartbeat ∧
      (after next evts x).interest = r.interest ∧
      Since (· ≠ .nop) r.conn.log (after next evts x).conn.log := by
  cases hx with
  | close _ => exact ⟨rfl, rfl, .snoc nofun⟩
  | noClose _ => exact ⟨rfl, rfl, .refl _ _⟩
  | messages hflushed =>
    have hsince := since_of_flushed hflushed
    refine ⟨?_, rfl, hsince⟩
    simp only [after]
    rw [hflushed.conn]
  | messagesPanic _ _ _ hflushed =>
    have hsince := since_of_flushed hflushed
    refine ⟨?_, rfl, hsince⟩
    simp only [after]
    rw [hflushed.conn]
  | readable _ => exact absurd rfl htoken
  | writable _ => exact absurd rfl htoken

/-- A readable connection: the flag is what the frames make of it. -/
theorem flag_of_read {r : EventLoop} {x : Except Leave EventLoop}
    (hx : ReadOutcome json client k io r x) (next : List Event → Phase) (evts : List Event) :
    Over (after next evts x) ∨ (after next evts x).conn.heartbeat = r.conn.heartbeat ∨
      ∃ bs fs c, io.read = .ok bs ∧ Conn.Fed k bs fs r.conn c ∧
        (after next evts x).conn.heartbeat = c.heartbeat := by
  cases hx with
  | panicked _ _ _ => exact .inl ⟨_, rfl⟩
  | refused _ _ _ _ _ => exact .inl ⟨_, rfl⟩
  | noResponse _ _ _ _ => exact .inl ⟨_, rfl⟩
  | eof _ => exact .inr (.inl rfl)
  | wouldBlock _ => exact .inr (.inl rfl)
  | started hread hfed _ => exact .inr (.inr ⟨_, _, _, hread, hfed, rfl⟩)
  | unasked hread hfed _ _ _ => exact .inr (.inr ⟨_, _, _, hread, hfed, rfl⟩)
  | producer hread hfed _ _ _ => exact .inr (.inr ⟨_, _, _, hread, hfed, rfl⟩)
  | tlsSwitch hread hfed _ _ _ _ _ => exact .inr (.inr ⟨_, _, _, hread, hfed, rfl⟩)
  | answered hread hfed _ _ => exact .inr (.inr ⟨_, _, _, hread, hfed, rfl⟩)

/-- A readable connection does not answer. -/
theorem since_of_read {r : EventLoop} {x : Except Leave EventLoop}
    (hx : ReadOutcome json client k io r x) (next : List Event → Phase) (evts : List Event) :
    Since (· ≠ .nop) r.conn.log (after next evts x).conn.log := by
  refine (read_log hx next evts).mono ?_
  rintro o (⟨bs, rfl⟩ | ⟨resp, rfl⟩ | rfl | rfl) <;> exact nofun

/-- After the handshake, a read of a heartbeat sets the flag and registers the connection for
writing. -/
theorem started_read {r : EventLoop} {x : Except Leave EventLoop} {bs : List UInt8}
    {fs : List Frame} {c : Conn} (hstate : r.conn.state = .started)
    (hread : io.read = .ok bs) (hfed : Conn.Fed k bs fs r.conn c)
    (hbeat : ∃ f ∈ fs, f.isHeartbeat = true) (hx : ReadOutcome json client k io r x)
    {next : List Event → Phase} {evts : List Event} (halive : ¬ Crashed (after next evts x)) :
    (after next evts x).conn.heartbeat = true ∧ (after next evts x).interest = .writable := by
  cases hx with
  | panicked _ _ _ => exact absurd (.inl ⟨_, rfl⟩) halive
  | refused _ _ _ hhalt _ => exact absurd (crashed_of_refused hhalt) halive
  | noResponse _ _ _ _ => exact absurd (.inl ⟨_, rfl⟩) halive
  | eof hread' =>
    rw [hread] at hread'
    cases hread'
    exact absurd rfl hfed.ne_nil
  | wouldBlock hread' =>
    rw [hread] at hread'
    cases hread'
  | @started _ gs c' hread' hfed' _ =>
    rw [hread] at hread'
    cases hread'
    -- the frames taken do not depend on who names them
    obtain ⟨hs, hgs, -⟩ := hfed'.taken hfed.bytes hfed.parsed hfed.within
    obtain ⟨f, hf, hbeat⟩ := hbeat
    have hany : gs.any Frame.isHeartbeat = true := by
      rw [List.any_eq_true]
      refine ⟨f, ?_, hbeat⟩
      rw [hgs]
      exact List.mem_append_left hs hf
    refine ⟨?_, rfl⟩
    simp only [after]
    rw [hfed'.heartbeat, hany, Bool.or_true]
  | unasked _ _ _ hne _ => exact absurd hstate hne
  | producer _ _ _ hsub _ =>
    rw [hstate] at hsub
    cases hsub
  | tlsSwitch _ _ _ hidentify _ _ _ =>
    rw [hstate] at hidentify
    cases hidentify
  | answered _ _ _ hanswered =>
    rw [hstate] at hanswered
    cases hanswered

/-- What the answer to a heartbeat logs, if there was one. -/
def beatLog (k : Stream) (io : Io) (r : EventLoop) : List Obs :=
  if r.conn.heartbeat then
    [.nop, .wrote k (r.conn.wBuf.bytes ++ cmdBytes NsqCmd.nop.asCmd) (io.writes 0)]
  else []

/-- After the handshake, a writable connection answers the heartbeat, if there was one, and then
writes the commands from the channel; in the end it is registered for reading. -/
theorem started_write {r : EventLoop} {x : Except Leave EventLoop}
    (hstate : r.conn.state = .started) (hx : WriteOutcome json client k io r x)
    (next : List Event → Phase) (evts : List Event) :
    (after next evts x).conn.heartbeat = false ∧
      (Over (after next evts x) ∨ (after next evts x).interest = .readable) ∧
      Since (· ≠ .nop) (r.conn.log ++ beatLog k io r) (after next evts x).conn.log := by
  have hanswer : ∀ {r₁ : EventLoop} {cmds : List Cmd} {c : Conn}, Beat k io r r₁ →
      Conn.Flushed k cmds { r₁.conn with r := [] } c →
      c.heartbeat = false ∧ Since (· ≠ .nop) (r.conn.log ++ beatLog k io r) c.log := by
    intro r₁ cmds c hbeat hflushed
    have hsince := since_of_flushed hflushed
    have hsame : c.heartbeat = r₁.conn.heartbeat := by rw [hflushed.conn]
    cases hbeat with
    | quiet hflag =>
      have hnone : beatLog k io r = [] := by rw [beatLog, hflag, if_neg Bool.false_ne_true]
      rw [hnone, List.append_nil]
      exact ⟨hsame.trans hflag, hsince⟩
    | nop hflag hbuf =>
      rw [beatLog, hflag, if_pos rfl, ← hbuf]
      exact ⟨hsame, hsince⟩
  cases hx with
  | command hsends _ =>
    rw [hstate] at hsends
    cases hsends
  | mute hmute =>
    rw [hstate] at hmute
    cases hmute
  | started _ hbeat hflushed =>
    obtain ⟨hflag, hsince⟩ := hanswer hbeat hflushed
    exact ⟨hflag, .inr rfl, hsince⟩
  | startedPanic _ hbeat _ _ hflushed =>
    obtain ⟨hflag, hsince⟩ := hanswer hbeat hflushed
    exact ⟨hflag, .inl ⟨_, rfl⟩, hsince⟩

/-- During the handshake a writable connection leaves the flag alone. -/
theorem handshake_write {r : EventLoop} {x : Except Leave EventLoop}
    (hstate : r.conn.state ≠ .started) (hx : WriteOutcome json client k io r x)
    (next : List Event → Phase) (evts : List Event) :
    (after next evts x).conn.heartbeat = r.conn.heartbeat ∧
      Since (· ≠ .nop) r.conn.log (after next evts x).conn.log := by
  cases hx with
  | command _ _ => exact ⟨rfl, .append (by simp)⟩
  | mute _ => exact ⟨rfl, .append (by simp)⟩
  | started hstarted _ _ => exact absurd hstarted hstate
  | startedPanic hstarted _ _ _ _ => exact absurd hstarted hstate

/-! ## No answer without a heartbeat -/

/-- What a step does to the flag, and what it logs of answers to heartbeats. -/
inductive Pulse (json : Json) (client : Client) (r : EventLoop) (l : Label) (r' : EventLoop) :
    Prop where
  /-- The end of `run`. -/
  | ended : Over r' → Since (· ≠ .nop) r.conn.log r'.conn.log → Pulse json client r l r'
  /-- Nothing happens. -/
  | still :
      r'.conn.heartbeat = r.conn.heartbeat → Since (· ≠ .nop) r.conn.log r'.conn.log →
      Pulse json client r l r'
  /-- Frames. -/
  | fed {k : Stream} {io : Io} {evts : List Event} {bs : List UInt8} {fs : List Frame} {c : Conn} :
      l = .event io → r.phase = phaseOf k (⟨.connection, .readable⟩ :: evts) → io.read = .ok bs →
      Conn.Fed k bs fs r.conn c → r'.conn.heartbeat = c.heartbeat →
      Since (· ≠ .nop) r.conn.log r'.conn.log → Pulse json client r l r'
  /-- The answer to a heartbeat, if there was one. -/
  | answered {k : Stream} {io : Io} {e : Event} {evts : List Event} :
      r.phase = phaseOf k (e :: evts) → r'.conn.heartbeat = false →
      Since (· ≠ .nop) (r.conn.log ++ beatLog k io r) r'.conn.log → Pulse json client r l r'

/-- A step does nothing else to the flag. -/
theorem pulse_of_step {r r' : EventLoop} {l : Label} (hstep : step json client r l = some r') :
    Pulse json client r l r' := by
  cases step_outcome hstep with
  | @tls answer _ => cases answer <;> exact .still rfl (.refl _ _)
  | @event k e evts io x hphase hevent =>
    obtain ⟨token, readiness⟩ := e
    by_cases htoken : token = .connection
    · subst htoken
      cases hevent with
      | readable hread =>
        have hsince := since_of_read hread (phaseOf k) evts
        rcases flag_of_read hread (phaseOf k) evts with
          hover | hflag | ⟨bs, fs, c, hbs, hfed, hflag⟩
        · exact .ended hover hsince
        · exact .still hflag hsince
        · exact .fed rfl hphase hbs hfed hflag hsince
      | writable hwrite =>
        by_cases hstate : r.conn.state = .started
        · obtain ⟨hflag, -, hsince⟩ := started_write hstate hwrite (phaseOf k) evts
          exact .answered hphase hflag hsince
        · obtain ⟨hflag, hsince⟩ := handshake_write hstate hwrite (phaseOf k) evts
          exact .still hflag hsince
    · obtain ⟨hflag, -, hsince⟩ := idle_event htoken hevent (phaseOf k) evts
      exact .still hflag hsince
  | _ => exact .still rfl (.refl _ _)

/-- One more step without an answer. -/
theorem Received.snoc {r₀ r r' : EventLoop} {ls : List Label} {l : Label}
    (h : Received json client r₀ ls r) (hstep : step json client r l = some r')
    (hsince : Since (· ≠ .nop) r.conn.log r'.conn.log) :
    Received json client r₀ (ls ++ [l]) r' := by
  obtain ⟨k, ls₁, l₁, ls₂, r₁, r₂, rfl, hrun₁, htakes, hstep₁, hrun₂, hsince₁⟩ := h
  refine ⟨k, ls₁, l₁, ls₂ ++ [l], r₁, r₂, by simp, hrun₁, htakes, hstep₁, ?_, ?_⟩
  · exact .snoc hrun₂ trivial hstep
  · exact hsince₁.trans hsince

/-- Before `run` ends the flag is set only if a heartbeat was received since the last answer.

**Proof sketch.** By induction on the run.  A step that answers clears the flag; one that reads
frames sets it only for a heartbeat among them; and the others leave it as it was. -/
theorem received_of_heartbeat {r₀ r : EventLoop} {ls : List Label}
    (hrun : Machine.Run (step json client) Machine.anything r₀ ls r)
    (hstart : r₀.conn.heartbeat = false) (hover : ¬ Over r) (hflag : r.conn.heartbeat = true) :
    Received json client r₀ ls r := by
  induction hrun with
  | nil =>
    rw [hstart] at hflag
    cases hflag
  | @snoc ls t u l hrun _ hstep ih =>
    have hbefore : t.conn.heartbeat = true → Received json client r₀ ls t :=
      ih fun ht => hover (over_of_step ht hstep)
    cases pulse_of_step hstep with
    | ended hover' _ => exact absurd hover' hover
    | still hsame hsince =>
      rw [hsame] at hflag
      exact (hbefore hflag).snoc hstep hsince
    | @fed k io evts bs fs c hl hphase hbs hfed hsame hsince =>
      rw [hsame, hfed.heartbeat, Bool.or_eq_true, List.any_eq_true] at hflag
      rcases hflag with hflag | hbeat
      · exact (hbefore hflag).snoc hstep hsince
      · exact ⟨k, ls, l, [], t, u, rfl, hrun, ⟨io, evts, bs, fs, c, hl, hphase, hbs, hfed, hbeat⟩,
          hstep, .nil, hsince⟩
    | answered _ hclear _ =>
      rw [hclear] at hflag
      cases hflag

/-- A step logs at most one answer, and only with the flag set. -/
theorem Pulse.count {r r' : EventLoop} {l : Label} (h : Pulse json client r l r')
    {tail : List Obs} (hlog : r'.conn.log = r.conn.log ++ tail) (hnop : .nop ∈ tail) :
    tail.count .nop = 1 ∧ r.conn.heartbeat = true ∧ ¬ Over r := by
  have hsilent : ¬ Since (· ≠ .nop) r.conn.log r'.conn.log := by
    rintro ⟨tail', htail, hnone⟩
    rw [hlog, List.append_cancel_left_eq] at htail
    subst htail
    exact hnone _ hnop rfl
  cases h with
  | ended _ hsince => exact absurd hsince hsilent
  | still _ hsince => exact absurd hsince hsilent
  | fed _ _ _ _ _ hsince => exact absurd hsince hsilent
  | @answered k io e evts hphase _ hsince =>
    have hover : ¬ Over r := by
      rintro ⟨halt, hdone⟩
      rw [hdone] at hphase
      cases k <;> cases hphase
    cases hflag : r.conn.heartbeat with
    | false =>
      have hnone : beatLog k io r = [] := by rw [beatLog, hflag, if_neg Bool.false_ne_true]
      rw [hnone, List.append_nil] at hsince
      exact absurd hsince hsilent
    | true =>
      obtain ⟨tail', htail, hnone⟩ := hsince
      rw [beatLog, hflag, if_pos rfl, hlog, List.append_assoc,
        List.append_cancel_left_eq] at htail
      refine ⟨?_, rfl, hover⟩
      have hzero : tail'.count .nop = 0 := List.count_eq_zero.mpr fun hmem => hnone _ hmem rfl
      rw [htail, List.count_append, hzero]
      simp

/-! ## One answer between two reads -/

/-- Where the loop over the stream `k` is after it read a heartbeat and the log was `log`: it waits
for the connection to be writable, or it wrote one `NOP` and waits for it to be readable. -/
def Heeds (k : Stream) (log : List Obs) (r : EventLoop) : Prop :=
  Over r ∨ (∃ evts, r.phase = phaseOf k evts) ∧
    ((r.conn.heartbeat = true ∧ r.interest = .writable ∧ Since (· ≠ .nop) log r.conn.log) ∨
      (r.conn.heartbeat = false ∧ r.interest = .readable ∧ ∃ res, OneNop k res log r.conn.log))

/-- What neither answers nor registers the connection. -/
theorem Heeds.keep {log : List Obs} {r r' : EventLoop} (h : Heeds k log r)
    (hphase : Over r → Over r')
    (hphase' : ∀ evts, r.phase = phaseOf k evts → Over r' ∨ ∃ evts', r'.phase = phaseOf k evts')
    (hflag : r'.conn.heartbeat = r.conn.heartbeat) (hinterest : r'.interest = r.interest)
    (hsince : Since (· ≠ .nop) r.conn.log r'.conn.log) : Heeds k log r' := by
  rcases h with hover | ⟨⟨evts, hin⟩, h⟩
  · exact .inl (hphase hover)
  · rcases hphase' evts hin with hover | hin'
    · exact .inl hover
    · refine .inr ⟨hin', ?_⟩
      rw [hflag, hinterest]
      rcases h with ⟨hset, hwritable, hsilent⟩ | ⟨hclear, hreadable, res, hone⟩
      · exact .inl ⟨hset, hwritable, hsilent.trans hsince⟩
      · exact .inr ⟨hclear, hreadable, res, hone.before hsince⟩

/-- The phases of one loop are not those of the other. -/
theorem phaseOf_inj {k k' : Stream} {evts evts' : List Event}
    (h : phaseOf k evts = phaseOf k' evts') : k = k' := by
  cases k <;> cases k' <;> first | rfl | cases h

/-- In a batch. -/
theorem Heeds.of_phase {k' : Stream} {log : List Obs} {r : EventLoop} {evts : List Event}
    (h : Heeds k log r) (hphase : r.phase = phaseOf k' evts) :
    k = k' ∧
      ((r.conn.heartbeat = true ∧ r.interest = .writable ∧ Since (· ≠ .nop) log r.conn.log) ∨
        (r.conn.heartbeat = false ∧ r.interest = .readable ∧
          ∃ res, OneNop k res log r.conn.log)) := by
  rcases h with ⟨halt, hdone⟩ | ⟨⟨evts', hin⟩, h⟩
  · rw [hdone] at hphase
    cases k' <;> cases hphase
  · exact ⟨phaseOf_inj (hin.symm.trans hphase), h⟩

/-- The answer itself. -/
theorem oneNop_of_write {r : EventLoop} {x : Except Leave EventLoop}
    (hstate : r.conn.state = .started) (hbuf : r.conn.wBuf.bytes = [])
    (hflag : r.conn.heartbeat = true) (hx : WriteOutcome json client k io r x)
    (next : List Event → Phase) (evts : List Event) :
    OneNop k (io.writes 0) r.conn.log (after next evts x).conn.log := by
  obtain ⟨-, -, tail, hlog, htail⟩ := started_write hstate hx next evts
  rw [beatLog, hflag, if_pos rfl, hbuf, List.nil_append, List.append_assoc] at hlog
  exact ⟨[], tail, hlog, nofun, htail⟩

/-- When the connection is read next, the answer was given. -/
theorem Heeds.before_read {k' : Stream} {log : List Obs} {r : EventLoop} {evts : List Event}
    (h : Heeds k log r) (hphase : r.phase = phaseOf k' (⟨.connection, .readable⟩ :: evts))
    (hmio : Mio r (.event io)) : ∃ res, OneNop k res log r.conn.log := by
  have hready : .readable = r.interest := hmio _ (nextEvent_of_phase hphase) rfl
  obtain ⟨-, h⟩ := h.of_phase hphase
  rcases h with ⟨-, hwritable, -⟩ | ⟨-, -, hone⟩
  · rw [hwritable] at hready
    cases hready
  · exact hone

/-- When the connection is writable, the answer is given. -/
theorem Heeds.after_write {k' : Stream} {log : List Obs} {r r' : EventLoop}
    {evts : List Event} (h : Heeds k log r) (hstate : r.conn.state = .started)
    (hbuf : r.conn.wBuf.bytes = [])
    (hphase : r.phase = phaseOf k' (⟨.connection, .writable⟩ :: evts))
    (hmio : Mio r (.event io)) (hstep : step json client r (.event io) = some r') :
    ∃ res, OneNop k res log r'.conn.log := by
  have hready : .writable = r.interest := hmio _ (nextEvent_of_phase hphase) rfl
  obtain ⟨rfl, h⟩ := h.of_phase hphase
  rcases h with ⟨hset, -, hsilent⟩ | ⟨-, hreadable, -⟩
  · rw [step_event hphase, Option.some.injEq] at hstep
    subst hstep
    have hwrite := onWritable_outcome json client k io r
    have hone := oneNop_of_write hstate hbuf hset hwrite (phaseOf k) evts
    exact ⟨_, hone.after hsilent⟩
  · rw [hreadable] at hready
    cases hready

/-- After the handshake a step that does not read leads on to the answer, and no further. -/
theorem heeds_step {log : List Obs} {r r' : EventLoop} {l : Label} (h : Heeds k log r)
    (hat : At json client r .started) (hbuf : r.conn.wBuf.bytes = []) (hmio : Mio r l)
    (hreads : ¬ Reads r l) (hstep : step json client r l = some r') : Heeds k log r' := by
  have hstate : r.conn.state = .started := hat.state
  cases step_outcome hstep with
  | send => exact h.keep id (fun evts hin => .inr ⟨evts, hin⟩) rfl rfl (.refl _ _)
  | close => exact h.keep id (fun evts hin => .inr ⟨evts, hin⟩) rfl rfl (.refl _ _)
  | @pollPlain evts now s hphase _ _ =>
    refine h.keep (fun hover => over_of_step hover hstep) (fun evts' hin => ?_) rfl rfl (.refl _ _)
    have hplain : phaseOf .plain [] = phaseOf k evts' := hphase.symm.trans hin
    obtain rfl := phaseOf_inj hplain
    exact .inr ⟨evts, rfl⟩
  | @pollTls evts now hphase =>
    refine h.keep (fun hover => over_of_step hover hstep) (fun evts' hin => ?_) rfl rfl (.refl _ _)
    have htls : phaseOf .tls [] = phaseOf k evts' := hphase.symm.trans hin
    obtain rfl := phaseOf_inj htls
    exact .inr ⟨evts, rfl⟩
  | pollFailed => exact .inl ⟨_, rfl⟩
  | tls hphase => exact absurd hstate (hat.not_started_of_switch hphase)
  | @event k' e evts io x hphase hevent =>
    obtain ⟨token, readiness⟩ := e
    by_cases htoken : token = .connection
    · subst htoken
      cases hevent with
      | readable _ => exact absurd (nextEvent_of_phase hphase) hreads
      | writable hwrite =>
        have hone := h.after_write hstate hbuf hphase hmio hstep
        obtain ⟨hclear, hregistered, -⟩ := started_write hstate hwrite (phaseOf k') evts
        obtain ⟨rfl, -⟩ := h.of_phase hphase
        rcases hregistered with hover | hregistered
        · exact .inl hover
        · rcases after_phase (phaseOf k) evts x with hover | hin
          · exact .inl hover
          · exact .inr ⟨hin, .inr ⟨hclear, hregistered, hone⟩⟩
    · obtain ⟨hsame, hinterest, hsince⟩ := idle_event htoken hevent (phaseOf k') evts
      refine h.keep (fun hover => over_of_step hover hstep) (fun evts' hin => ?_) hsame hinterest
        hsince
      obtain rfl : k = k' := phaseOf_inj (hin.symm.trans hphase)
      exact after_phase (phaseOf k) evts x

/-- The last stage stays. -/
theorem At.started_of_le {r : EventLoop} {s : Stage} (h : At json client r s)
    (hle : stateOrder.idxOf State.started ≤ stateOrder.idxOf s.state) :
    At json client r .started := by
  cases s <;> first | exact h | exact absurd hle (by decide)

/-- After the handshake nothing is left in the write buffer between two steps. -/
theorem wBuf_of_started {sent : List Cmd} {r : EventLoop} (hat : At json client r .started)
    (h : Delivered json client sent r) : r.conn.wBuf.bytes = [] := by
  rw [h.carries.wBuf, due, h.carries.pending, List.flatMap_nil, List.append_nil]
  refine if_neg ?_
  intro hnone
  -- without a write the handshake commands would still be pending
  have hunwritten := unwritten_of_firstWrite (Option.isNone_iff_eq_none.mp hnone)
  have hpending := h.carries.pending
  rw [pending, hunwritten, List.filterMap_eq_nil_iff] at hpending
  obtain ⟨free, hpaced, -⟩ := hat.paced
  have hmem : Handshake.identify ∈ handshakes r.conn.log := by
    rw [hpaced.handshakes_eq]
    simp [Stage.written, script, greeting]
  obtain ⟨o, ho, hidentify⟩ := List.mem_filterMap.mp hmem
  have hqueued := hpending o ho
  cases o with
  | handshake hs need => cases hqueued
  | _ => cases hidentify

/-- Once the handshake is over it stays so, and nothing is left in the write buffer. -/
theorem started_of_run {cmds : List Cmd} {alloc : Alloc} {clock : ℕ} {ls ls' : List Label}
    {r r' : EventLoop}
    (hrun : Machine.Run (step json client) Mio (start client cmds alloc clock) ls r)
    (hstate : r.conn.state = .started) (hrun' : Machine.Run (step json client) Mio r ls' r')
    (halive : ¬ Crashed r') : At json client r' .started ∧ r'.conn.wBuf.bytes = [] := by
  have halive₁ : ¬ Crashed r := fun hcrashed => halive
    (hrun'.invariant Crashed hcrashed fun _ _ _ h _ hstep => crashed_of_step h hstep)
  obtain ⟨s, -, hat⟩ := at_run (at_start json client cmds alloc clock) hrun halive₁
  obtain ⟨s', hle, hat'⟩ := at_run hat hrun' halive
  rw [← hat.state, hstate] at hle
  have hstarted := hat'.started_of_le hle
  have hdelivered := delivered_run ((hrun.append hrun').mono fun _ _ _ => trivial) halive
  exact ⟨hstarted, wBuf_of_started hstarted hdelivered⟩

/-- After the handshake, from the read of a heartbeat on and as long as nothing is read. -/
theorem heeds_run {cmds : List Cmd} {alloc : Alloc} {clock : ℕ} {pre mid : List Label}
    {l : Label} {r₀ r₁ r₂ : EventLoop}
    (hpre : Machine.Run (step json client) Mio (start client cmds alloc clock) pre r₀)
    (hstate : r₀.conn.state = .started) (hmio : Mio r₀ l) (htakes : TakesHeartbeat k r₀ l)
    (hstep : step json client r₀ l = some r₁)
    (hmid : Machine.Run (step json client) (fun r l => Mio r l ∧ ¬ Reads r l) r₁ mid r₂)
    (halive : ¬ Crashed r₂) : Heeds k r₁.conn.log r₂ := by
  induction hmid with
  | nil =>
    obtain ⟨io, evts, bs, fs, c, rfl, hphase, hbs, hfed, hbeat⟩ := htakes
    rw [step_event hphase, Option.some.injEq] at hstep
    subst hstep
    have hread := onReadable_outcome json client k io r₀
    obtain ⟨hflag, hinterest⟩ := started_read hstate hbs hfed hbeat hread halive
    rcases after_phase (phaseOf k) evts (onReadable json client k io r₀) with hover | hin
    · exact .inl hover
    · exact .inr ⟨hin, .inl ⟨hflag, hinterest, .refl _ _⟩⟩
  | @snoc ls t u l' hmid hok hstep' ih =>
    have halive' : ¬ Crashed t := fun hcrashed => halive (crashed_of_step hcrashed hstep')
    have hrun : Machine.Run (step json client) Mio r₀ (l :: ls) t :=
      .cons hmio hstep (hmid.mono fun _ _ h => h.1)
    obtain ⟨hat, hbuf⟩ := started_of_run hpre hstate hrun halive'
    exact heeds_step (ih halive') hat hbuf hok.1 hok.2 hstep'

/-- From `r` on, the loop over the stream `k` writes one `NOP` before it reads again, and it does so
as soon as the connection is writable; the socket takes it. -/
def AnsweredOnce (json : Json) (client : Client) (k : Stream) (r : EventLoop) : Prop :=
  ∀ ls l r₁, Machine.Run (step json client) (fun r l => Mio r l ∧ ¬ Reads r l) r ls r₁ → Mio r₁ l →
    (Reads r₁ l → Whole r₁.conn.log →
      ∃ res, OneNop k res r.conn.log r₁.conn.log ∧ TakesAll res (cmdBytes NsqCmd.nop.asCmd)) ∧
    ∀ r₂, Writes r₁ l → step json client r₁ l = some r₂ → Whole r₂.conn.log →
      ∃ res, OneNop k res r.conn.log r₂.conn.log ∧ TakesAll res (cmdBytes NsqCmd.nop.asCmd)

/-- As long as `mio` keeps to the interest registered last: after a read in `Started` in which
`decode` took a heartbeat, whatever other frames came with it, the loop writes exactly one `NOP`,
when the connection is writable next and before it reads again, whatever is sent to the command
channel and written from it in between; and it writes a `NOP` only if a heartbeat was received since
the one before.

**Proof sketch.** After the read the flag is set and the connection registered for writing, and this
stays so until the connection is writable; then `NOP` is written, the flag cleared, and the
connection registered for reading, and this stays so until it is readable.  The flag is set by
heartbeats only. -/
theorem heartbeats_answered {cmds : List Cmd} {alloc : Alloc} {clock : ℕ} {ls : List Label}
    {l : Label} {r r' : EventLoop}
    (hrun : Machine.Run (step json client) Mio (start client cmds alloc clock) ls r)
    (hmio : Mio r l) (hstep : step json client r l = some r') :
    (r.conn.state = .started → ∀ k, TakesHeartbeat k r l → AnsweredOnce json client k r') ∧
    ∀ tail, r'.conn.log = r.conn.log ++ tail → .nop ∈ tail →
      tail.count .nop = 1 ∧ Received json client (start client cmds alloc clock) ls r := by
  refine ⟨?_, ?_⟩
  · intro hstate k htakes ls' l' r₁ hrun' hmio'
    have hheeds : ¬ Crashed r₁ → Heeds k r'.conn.log r₁ := fun halive =>
      heeds_run hrun hstate hmio htakes hstep hrun' halive
    refine ⟨fun hreads hwhole => ?_, fun r₂ hwrites hstep' hwhole => ?_⟩
    · obtain ⟨io, k', evts, rfl, hphase⟩ := phase_of_reads hreads
      have halive := not_crashed_of_phase hphase
      obtain ⟨res, hone⟩ := (hheeds halive).before_read hphase hmio'
      exact ⟨res, hone, hone.takesAll hwhole⟩
    · obtain ⟨io, k', evts, rfl, hphase⟩ := phase_of_writes hwrites
      have halive := not_crashed_of_phase hphase
      have hrun₁ : Machine.Run (step json client) Mio r (l :: ls') r₁ :=
        .cons hmio hstep (hrun'.mono fun _ _ h => h.1)
      obtain ⟨hat, hbuf⟩ := started_of_run hrun hstate hrun₁ halive
      obtain ⟨res, hone⟩ := (hheeds halive).after_write hat.state hbuf hphase hmio' hstep'
      exact ⟨res, hone, hone.takesAll hwhole⟩
  · intro tail hlog hnop
    obtain ⟨hcount, hflag, hover⟩ := (pulse_of_step hstep).count hlog hnop
    exact ⟨hcount, received_of_heartbeat (hrun.mono fun _ _ _ => trivial) rfl hover hflag⟩

set_option maxRecDepth 4000 in
/-- A heartbeat in one read with a message, after the handshake over the plain socket, and a command
whose wake-up comes before the connection is writable: the command is written, then `NOP`, and then
the connection is read. -/
theorem heartbeats_answered_fin :
    ∃ r r₁ : EventLoop, (∃ res, OneNop .plain res r.conn.log r₁.conn.log) ∧
      accepted r₁.conn.log =
        accepted r.conn.log ++ Utf8.asBytes "FIN 0123456789abcdef\nNOP\n" := by
  have hexec : Machine.exec (step serde ⟨"t", "c", none, 1, .default none⟩) Mio
      (start ⟨"t", "c", none, 1, .default none⟩ [] .exact 0)
      (joining ++ writing ++
        [.poll [⟨.connection, .readable⟩] 0]) = some _ := rfl
  have hanswered := (heartbeats_answered (l := .event ⟨.ok ((Frame.ofPayload 2
      (message "0123456789abcdef" [109])).wire ++
    (Frame.ofPayload 0 (Utf8.asBytes HEARTBEAT)).wire), fun _ => .ok 0, true⟩)
    (Machine.Run.of_exec hexec) (by decide) rfl).1 rfl .plain
      (takesHeartbeat_of_read (n := 54) rfl rfl rfl rfl)
  have hone := (hanswered [.send (NsqCmd.fin "0123456789abcdef").asCmd,
      .poll [⟨.client, .writable⟩, ⟨.connection, .writable⟩] 0,
      .event ⟨.ok [], fun _ => .ok 100, true⟩, .event ⟨.ok [], fun _ => .ok 100, true⟩,
      .poll [⟨.connection, .readable⟩] 0] (.event ⟨.ok [], fun _ => .ok 0, true⟩) _
    (Machine.Run.of_exec rfl) (by decide)).1 rfl (by decide)
  exact ⟨_, _, ⟨_, hone.choose_spec.1⟩, by decide⟩

end EventLoop

end NsqClient
