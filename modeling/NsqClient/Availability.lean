import NsqClient.Steps

set_option relaxedAutoImplicit false
set_option autoImplicit false

/-!
# Responses when they are asked for

In the states in which a response is due, every read that brings bytes is followed by
`get_response`, whatever the bytes were.  So the event loop finds a response every time, and goes
on waiting whenever there is none yet, exactly if every such read brings a complete reply that
`decode` takes.

## Main definitions

* `NsqClient.Delivers` — a read brings a complete reply.
* `NsqClient.EventLoop.Awaiting` — the next event is a read in a state in which a response is due.
* `NsqClient.EventLoop.Available` — what a step should do: not unwrap `None`, and wait if there is
  no reply.
* `NsqClient.EventLoop.Answering` — the condition on the reads.

## Main results

* `NsqClient.EventLoop.available_iff` — the one holds of a step if and only if the other does.
* `NsqClient.EventLoop.responses_available_iff` — the same of every run.
* `NsqClient.EventLoop.no_response_heartbeat` — a heartbeat, or the first bytes of a reply, before
  the reply.
-/

namespace NsqClient

/-- With what is in the buffer, the bytes of a read complete a reply, and `decode` takes it: the
read is long enough for the frames up to the reply. -/
def Delivers (rBuf bs : List UInt8) : Prop :=
  ∃ fs rest, rBuf ++ bs = wire fs ++ rest ∧ (∀ f ∈ fs, f.Honest ∧ f.Within bs.length) ∧
    ∃ f ∈ fs, f.isReply = true

namespace Conn

/-- A reply that can be read is pushed. -/
theorem reply?_isSome {f : Frame} (hreply : f.isReply = true) (hread : f.Readable) :
    (reply? f).isSome = true := by
  rcases hread with hmsg | htext
  · rw [isReply_of_isMessage hmsg] at hreply
    cases hreply
  · rw [reply?, if_pos hreply, Option.isSome_map]
    exact htext

/-- After a read there is a response if there was one or the read delivered one. -/
theorem Fed.responses_ne_nil {k : Stream} {bs : List UInt8} {fs : List Frame} {c c' : Conn}
    (h : Fed k bs fs c c') (hdelivers : Delivers c.rBuf bs) : c'.responses ≠ [] := by
  obtain ⟨gs, rest, hbytes, hgs, f, hf, hreply⟩ := hdelivers
  obtain ⟨hs, rfl, -⟩ := h.frames hbytes hgs
  have hmem : f ∈ gs ++ hs := List.mem_append_left hs hf
  obtain ⟨resp, hresp⟩ := Option.isSome_iff_exists.mp (reply?_isSome hreply (h.readable f hmem))
  rw [h.responses]
  have hpushed : resp ∈ (gs ++ hs).filterMap reply? := List.mem_filterMap.mpr ⟨f, hmem, hresp⟩
  exact List.append_ne_nil_of_right_ne_nil _ (List.ne_nil_of_mem hpushed)

end Conn

namespace EventLoop

variable {json : Json} {client : Client}

/-- The next event is a readable connection, in a state in which `get_response` is called after a
read.  The vector for the read can be allocated. -/
structure Awaiting (client : Client) (r : EventLoop) (k : Stream) (evts : List Event) : Prop where
  phase : r.phase = phaseOf k (⟨.connection, .readable⟩ :: evts)
  awaits : awaits client k r.conn.state = true
  fits : r.conn.config.outputBufferSize.toNat ≤ isizeMax

/-- The loop waits for more input: nothing has happened but that it is about to poll again. -/
structure Waits (r r' : EventLoop) (k : Stream) : Prop where
  state : r'.conn.state = r.conn.state
  needResponse : r'.conn.needResponse = r.conn.needResponse
  phase : r'.phase = phaseOf k []
  interest : r.interest = .readable → r'.interest = .readable

/-- What a step should do: it does not unwrap `None`; and after a read that brings no complete
reply, be it that it brings other bytes, none at all, or that it would block, the loop waits. -/
def Available (json : Json) (client : Client) (r : EventLoop) (l : Label) : Prop :=
  ∀ r', step json client r l = some r' →
    (r'.phase = .done (.panicked .noResponse) → r.phase = .done (.panicked .noResponse)) ∧
    ∀ io k evts, l = .event io → Awaiting client r k evts →
      (∃ bs, io.read = .ok bs ∧ ¬ Delivers r.conn.rBuf bs) ∨
        (io.read = .error .wouldBlock ∧ io.infoOpen = true) →
      Waits r r' k

/-- The condition: in a state in which a response is due, a read that brings bytes brings a
complete reply. -/
def Answering (client : Client) (r : EventLoop) : Label → Prop
  | .event io => ∀ k evts, Awaiting client r k evts →
    ∀ bs, io.read = .ok bs → bs ≠ [] → Delivers r.conn.rBuf bs
  | _ => True

/-! ## A read without bytes -/

/-- The end of the file, in a state in which a response is due. -/
theorem waits_of_eof {r : EventLoop} {k : Stream} {evts : List Event} {io : Io}
    (h : Awaiting client r k evts) (hres : io.read = .ok []) :
    Waits r (after (phaseOf k) evts (onEvent json client k io ⟨.connection, .readable⟩ r)) k := by
  have hfits := h.fits
  have hread : r.conn.read k io.read = .ok (.ok 0, r.conn) := by
    unfold Conn.read Conn.readTcp
    rw [if_neg (by omega), hres]
  have heof : onReadable json client k io r = .error (.brk { r with
      interest := if r.conn.needResponse then .readable else r.interest }) := by
    rw [onReadable_eq]
    unfold read
    rw [hread]
    rfl
  simp only [onEvent, heof]
  refine ⟨rfl, rfl, rfl, ?_⟩
  intro hinterest
  simp [after, hinterest]

/-- A read that would block. -/
theorem waits_of_wouldBlock {r : EventLoop} {k : Stream} {evts : List Event} {io : Io}
    (h : Awaiting client r k evts) (hres : io.read = .error .wouldBlock)
    (hopen : io.infoOpen = true) :
    Waits r (after (phaseOf k) evts (onEvent json client k io ⟨.connection, .readable⟩ r)) k := by
  have hfits := h.fits
  have hread : r.conn.read k io.read = .ok (.error .wouldBlock, r.conn) := by
    unfold Conn.read Conn.readTcp
    rw [if_neg (by omega), hres]
  have hblock : onReadable json client k io r =
      .error (.brk { r with conn := r.conn.note .disconnected }) := by
    rw [onReadable_eq]
    unfold read
    rw [hread]
    simp only [ne_eq, not_true_eq_false, if_false, hopen, if_true]
    rfl
  simp only [onEvent, hblock]
  exact ⟨rfl, rfl, rfl, fun hinterest => hinterest⟩

/-! ## A step -/

/-- A response leads to another state. -/
theorem ne_of_answered {k : Stream} {st st' : State} {cfg cfg' : NsqdConfig} {resp : String}
    (h : Answered json client k st cfg resp cfg' st') : st' ≠ st := by
  have hchoice : ∀ {cfg : NsqdConfig} {st : State}, AuthChoice client cfg st →
      st = .auth ∨ st = .subscribe := by
    rintro cfg st (⟨-, -, rfl⟩ | ⟨-, rfl⟩)
    · exact .inl rfl
    · exact .inr rfl
  cases h with
  | identify _ _ h => rcases hchoice h with rfl | rfl <;> decide
  | tls h => rcases hchoice h with rfl | rfl <;> decide
  | auth => decide
  | subscribe _ => decide

/-- Only a read in a state in which a response is due unwraps `None`, and only if it does not
deliver. -/
theorem noResponse_of_step {r r' : EventLoop} {l : Label}
    (hstep : step json client r l = some r')
    (hpanic : r'.phase = .done (.panicked .noResponse)) :
    r.phase = .done (.panicked .noResponse) ∨ ∃ io k evts bs, l = .event io ∧
      Awaiting client r k evts ∧ io.read = .ok bs ∧ bs ≠ [] ∧ ¬ Delivers r.conn.rBuf bs := by
  cases step_outcome hstep with
  | send => exact .inl hpanic
  | close => exact .inl hpanic
  | pollPlain _ _ => cases hpanic
  | pollTls _ => cases hpanic
  | pollFailed => cases hpanic
  | @tls answer _ => cases answer <;> cases hpanic
  | @event k e evts io x hphase hevent =>
    right
    have hrunning : ∀ evts', phaseOf k evts' ≠ .done (.panicked .noResponse) := by
      cases k <;> exact nofun
    cases hevent with
    | close _ => cases hpanic
    | noClose _ => exact absurd hpanic (hrunning _)
    | messages _ => exact absurd hpanic (hrunning _)
    | messagesPanic hp _ _ _ =>
      cases hpanic
      exact absurd rfl hp
    | readable hread =>
      cases hread with
      | panicked hp _ =>
        cases hpanic
        exact absurd rfl hp
      | refused _ _ _ hhalt _ =>
        cases hpanic
        rcases hhalt with ⟨p, hp, hne⟩ | hexit
        · cases hp
          exact absurd rfl hne
        · cases hexit
      | @noResponse bs _ _ hres hfed hawaits hnil =>
        exact ⟨io, k, evts, bs, rfl, ⟨hphase, hawaits, hfed.fits⟩, hres, hfed.ne_nil,
          fun hdelivers => hfed.responses_ne_nil hdelivers hnil⟩
      | eof _ => exact absurd hpanic (hrunning _)
      | wouldBlock _ => exact absurd hpanic (hrunning _)
      | started _ _ _ => exact absurd hpanic (hrunning _)
      | unasked _ _ _ _ _ => exact absurd hpanic (hrunning _)
      | producer _ _ _ _ _ => exact absurd hpanic (hrunning _)
      | tlsSwitch _ _ _ _ _ _ _ => exact absurd hpanic (hrunning _)
      | answered _ _ _ _ => exact absurd hpanic (hrunning _)
    | writable hwrite =>
      cases hwrite with
      | command _ _ => exact absurd hpanic (hrunning _)
      | mute _ => exact absurd hpanic (hrunning _)
      | started _ _ _ => exact absurd hpanic (hrunning _)
      | startedPanic _ _ hp _ _ =>
        cases hpanic
        exact absurd rfl hp

/-- A read in a state in which a response is due that brings bytes and no reply is not waited
after. -/
theorem not_waits {r : EventLoop} {k : Stream} {evts : List Event} {io : Io} {bs : List UInt8}
    (h : Awaiting client r k evts) (hres : io.read = .ok bs) (hne : bs ≠ []) :
    ¬ Waits r (after (phaseOf k) evts (onEvent json client k io ⟨.connection, .readable⟩ r)) k := by
  intro hwaits
  have hawaits := h.awaits
  have hout := onReadable_outcome json client k io r
  have hevent : onEvent json client k io ⟨.connection, .readable⟩ r =
      onReadable json client k io r := rfl
  rw [hevent] at hwaits
  have hrunning : ∀ halt, phaseOf k [] ≠ .done halt := by cases k <;> exact nofun
  generalize onReadable json client k io r = x at hwaits hout
  cases hout with
  | panicked _ _ _ => exact hrunning _ hwaits.phase.symm
  | refused _ _ _ _ _ => exact hrunning _ hwaits.phase.symm
  | noResponse _ _ _ _ => exact hrunning _ hwaits.phase.symm
  | eof heof =>
    rw [hres] at heof
    cases heof
    exact hne rfl
  | wouldBlock hblock =>
    rw [hres] at hblock
    cases hblock
  | started _ _ hstate =>
    rw [hstate] at hawaits
    cases hawaits
  | unasked _ _ hno _ _ =>
    rw [hawaits] at hno
    cases hno
  | producer _ _ hk hstate hproducer =>
    rw [hstate, hk] at hawaits
    simp [EventLoop.awaits, hproducer] at hawaits
  | tlsSwitch _ _ _ hstate _ _ _ =>
    have hsame := hwaits.state
    rw [hstate] at hsame
    cases hsame
  | answered _ _ _ hnext => exact ne_of_answered hnext hwaits.state

/-- A step does what it should if and only if its read meets the condition. -/
theorem available_iff {r : EventLoop} {l : Label} :
    Available json client r l ↔ Answering client r l := by
  constructor
  · intro h
    cases l with
    | event io =>
      intro k evts hawaiting bs hres hne
      by_contra hdelivers
      have hwaits := (h _ (step_event hawaiting.phase)).2 io k evts rfl hawaiting
        (.inl ⟨bs, hres, hdelivers⟩)
      exact not_waits hawaiting hres hne hwaits
    | _ => trivial
  · intro h r' hstep
    refine ⟨?_, ?_⟩
    · intro hpanic
      rcases noResponse_of_step hstep hpanic with
        hbefore | ⟨io, k, evts, bs, rfl, hawaiting, hres, hne, hdelivers⟩
      · exact hbefore
      · exact absurd (h k evts hawaiting bs hres hne) hdelivers
    · rintro io k evts rfl hawaiting hread
      rw [step_event hawaiting.phase] at hstep
      cases hstep
      rcases hread with ⟨bs, hres, hdelivers⟩ | ⟨hres, hopen⟩
      · by_cases hne : bs = []
        · subst hne
          exact waits_of_eof hawaiting hres
        · exact absurd (h k evts hawaiting bs hres hne) hdelivers
      · exact waits_of_wouldBlock hawaiting hres hopen

/-! ## Runs -/

/-- In every run: no step unwraps `None` and after every read that brings no complete reply the
loop waits, if and only if in the states in which a response is due every read that brings bytes
brings a complete reply.  Then `run` never panics for want of a response. -/
theorem responses_available_iff {cmds : List Cmd} {alloc : Alloc} {clock : ℕ} {ls : List Label}
    {r : EventLoop} :
    Machine.Run (step json client) (Available json client) (start client cmds alloc clock) ls r ∧
        r.phase ≠ .done (.panicked .noResponse) ↔
      Machine.Run (step json client) (Answering client) (start client cmds alloc clock) ls r := by
  constructor
  · rintro ⟨hrun, -⟩
    exact hrun.mono fun _ _ h => available_iff.mp h
  · intro hrun
    have havailable := hrun.mono fun t l h =>
      show Available json client t l from available_iff.mpr h
    refine ⟨havailable, ?_⟩
    refine havailable.invariant (fun t => t.phase ≠ .done (.panicked .noResponse)) ?_ ?_
    · exact fun h => by cases h
    · intro t l u ht hok hstep hpanic
      exact ht ((hok u hstep).1 hpanic)

set_option maxRecDepth 4000 in
/-- `run` panics if a heartbeat comes before the reply to `IDENTIFY`, and if the reply is read in
two pieces. -/
theorem no_response_heartbeat :
    (∃ r : EventLoop, Machine.Run (step serde ⟨"t", "c", none, 1, .default none⟩) Mio
        (start ⟨"t", "c", none, 1, .default none⟩ [] .exact 0)
        (writing ++ replying HEARTBEAT) r ∧ r.phase = .done (.panicked .noResponse)) ∧
    ∃ r : EventLoop, Machine.Run (step serde ⟨"t", "c", none, 1, .default none⟩) Mio
        (start ⟨"t", "c", none, 1, .default none⟩ [] .exact 0)
        (writing ++ reading [0, 0, 0, 6, 0]) r ∧
      r.phase = .done (.panicked .noResponse) := by
  have hbeat : Machine.exec (step serde ⟨"t", "c", none, 1, .default none⟩) Mio
      (start ⟨"t", "c", none, 1, .default none⟩ [] .exact 0)
      (writing ++ replying HEARTBEAT) = some _ := rfl
  have hpart : Machine.exec (step serde ⟨"t", "c", none, 1, .default none⟩) Mio
      (start ⟨"t", "c", none, 1, .default none⟩ [] .exact 0)
      (writing ++ reading [0, 0, 0, 6, 0]) = some _ := rfl
  exact ⟨⟨_, Machine.Run.of_exec hbeat, rfl⟩, ⟨_, Machine.Run.of_exec hpart, rfl⟩⟩

end EventLoop

end NsqClient
