import NsqClient.Lib.Monitor
import NsqClient.Lockstep

set_option relaxedAutoImplicit false
set_option autoImplicit false

/-!
# The length of the handshake

An event of the connection is productive if it is writable, or if it is readable and the socket
gives some bytes.  Before the handshake is over every productive event ends a stage, and nothing
else does.  So the stage is known by the number of these events and by the reply to `IDENTIFY`, over
both loops, whatever else happens in between; and the handshake takes five of them, one more for the
switch to TLS, two more for `AUTH`, and two less for a client that only publishes over TLS.

## Main definitions

* `NsqClient.Stage.index` — how many productive events lead to a stage.
* `NsqClient.EventLoop.productive`, `NsqClient.EventLoop.tally` — the events that are counted.

## Main results

* `NsqClient.EventLoop.count_step` — a productive event ends a stage, and nothing else does.
* `NsqClient.EventLoop.handshake_count` — the stage by the number of productive events.
-/

namespace NsqClient

/-! ## Counting stages -/

/-- The events that TLS and `AUTH` take. -/
def NsqdConfig.detour (cfg : NsqdConfig) : ℕ :=
  (if cfg.tlsV1 then 1 else 0) + if cfg.authRequired then 2 else 0

namespace Stage

/-- How many productive events lead to a stage. -/
def index (client : Client) (cfg : NsqdConfig) : Stage → ℕ
  | connected => 0
  | identified => 1
  | switched => 2
  | authorizing => 2 + if cfg.tlsV1 then 1 else 0
  | authorized => 3 + if cfg.tlsV1 then 1 else 0
  | subscribing => 2 + cfg.detour
  | subscribed => 3 + cfg.detour
  | ready => 4 + cfg.detour
  | started => (if cfg.tlsV1 && client.isProducer then 3 else 5) + cfg.detour

/-- A stage is known by its state and by whether a response is due. -/
theorem eq_of_state {s t : Stage} (hstate : s.state = t.state) (hwaiting : s.waiting = t.waiting) :
    s = t := by
  cases s <;> cases t <;>
    first | rfl | exact absurd hstate (by decide) | exact absurd hwaiting (by decide)

/-- No two stages that can be reached take the same number of productive events. -/
theorem index_inj {client : Client} {cfg : NsqdConfig} {s t : Stage} (hs : s.Valid client cfg)
    (ht : t.Valid client cfg) (h : s.index client cfg = t.index client cfg) : s = t := by
  cases htls : cfg.tlsV1 <;> cases hauth : cfg.authRequired <;>
    cases hproducer : client.isProducer <;> cases s <;> cases t <;>
    simp_all [Valid, index, NsqdConfig.detour]

/-- How many productive events the handshake takes: five, two less for a client that only publishes
over TLS, and those that TLS and `AUTH` take. -/
theorem index_started (client : Client) (cfg : NsqdConfig) : started.index client cfg =
    (if cfg.tlsV1 && client.isProducer then 3 else 5) + (if cfg.tlsV1 then 1 else 0) +
      if cfg.authRequired then 2 else 0 := by
  rw [index, NsqdConfig.detour, Nat.add_assoc]

end Stage

namespace EventLoop

variable {json : Json} {client : Client}

/-- Whether an event is one of the connection that is writable, or one that brings bytes. -/
def productive (r : EventLoop) : Label → Bool
  | .event io =>
    match r.nextEvent with
    | some ⟨.connection, .writable⟩ => true
    | some ⟨.connection, .readable⟩ => io.read.toOption.any fun bs => !bs.isEmpty
    | _ => false
  | _ => false

/-- The number of productive events before the handshake is over. -/
def tally (r : EventLoop) (l : Label) (k : ℕ) : ℕ :=
  if productive r l = true ∧ r.conn.state ≠ .started then k + 1 else k

/-- The stage after a step, told by the state and by whether a response is due. -/
theorem At.eq_stage {r : EventLoop} {s t : Stage} (h : At json client r s)
    (hstate : r.conn.state = t.state) (hneed : r.conn.needResponse = t.waiting) : s = t :=
  Stage.eq_of_state (h.state.symm.trans hstate) (h.needResponse.symm.trans hneed)

/-- What leaves the state, `need_response` and the configuration leaves the stage. -/
theorem At.same_stage {r r' : EventLoop} {s s' : Stage} (h : At json client r s)
    (h' : At json client r' s') (hstate : r'.conn.state = r.conn.state)
    (hneed : r'.conn.needResponse = r.conn.needResponse) (hcfg : r'.nsqdConfig = r.nsqdConfig) :
    s' = s ∧ s'.index client r'.nsqdConfig = s.index client r.nsqdConfig := by
  obtain rfl := h'.eq_stage (hstate.trans h.state) (hneed.trans h.needResponse)
  rw [hcfg]
  exact ⟨rfl, rfl⟩

/-- Whether an event of the connection is productive. -/
theorem productive_of_phase {r : EventLoop} {k : Stream} {e : Event} {evts : List Event}
    (hphase : r.phase = phaseOf k (e :: evts)) (io : Io) : productive r (.event io) =
      match e with
      | ⟨.connection, .writable⟩ => true
      | ⟨.connection, .readable⟩ => io.read.toOption.any fun bs => !bs.isEmpty
      | _ => false := by
  rw [productive, nextEvent_of_phase hphase]
  rcases e with ⟨_ | _ | _, _ | _⟩ <;> rfl

/-- A response that leads on ends a stage. -/
theorem index_answered {s : Stage} {k : Stream} {cfg cfg' : NsqdConfig} {resp : String} {st : State}
    (hwaiting : s.waiting = true) (hvalid : s.Valid client cfg)
    (h : Answered json client k s.state cfg resp cfg' st) :
    ∃ t : Stage, t.state = st ∧ t.waiting = false ∧
      t.index client cfg' = s.index client cfg + 1 := by
  cases s with
  | identified =>
    cases h with
    | identify hjson hplain hchoice =>
      rcases hchoice with ⟨-, -, rfl⟩ | ⟨hauth, rfl⟩
      · exact ⟨.authorizing, rfl, rfl, by simp [Stage.index, hplain]⟩
      · exact ⟨.subscribing, rfl, rfl, by simp [Stage.index, NsqdConfig.detour, hplain, hauth]⟩
  | switched =>
    have htls : cfg.tlsV1 = true := hvalid
    cases h with
    | tls hchoice =>
      rcases hchoice with ⟨-, -, rfl⟩ | ⟨hauth, rfl⟩
      · exact ⟨.authorizing, rfl, rfl, by simp [Stage.index, htls]⟩
      · exact ⟨.subscribing, rfl, rfl, by simp [Stage.index, NsqdConfig.detour, htls, hauth]⟩
  | authorized =>
    have hauth : cfg.authRequired = true := hvalid
    cases h
    refine ⟨.subscribing, rfl, rfl, ?_⟩
    cases htls : cfg.tlsV1 <;> simp [Stage.index, NsqdConfig.detour, hauth, htls]
  | subscribed =>
    cases h
    refine ⟨.ready, rfl, rfl, ?_⟩
    simp only [Stage.index]
    omega
  | _ => cases hwaiting

/-- A handshake command ends a stage. -/
theorem index_sends {s : Stage} {config : Config} {k : Stream} {cfg : NsqdConfig} {hs : Handshake}
    {cmd : NsqCmd} {st : State} {need : Bool} (hwaiting : s.waiting = false)
    (hvalid : s.Valid client cfg) (h : Sends json client config k s.state hs cmd st need) :
    ∃ t : Stage, t.state = st ∧ t.waiting = need ∧
      t.index client cfg = s.index client cfg + 1 := by
  cases s with
  | connected =>
    cases h
    exact ⟨.identified, rfl, rfl, rfl⟩
  | authorizing =>
    cases h
    refine ⟨.authorized, rfl, rfl, ?_⟩
    simp only [Stage.index]
    omega
  | subscribing =>
    cases h
    refine ⟨.subscribed, rfl, rfl, ?_⟩
    simp only [Stage.index]
    omega
  | ready =>
    have hproducer : (cfg.tlsV1 && client.isProducer) = false := hvalid
    cases h
    refine ⟨.started, rfl, rfl, ?_⟩
    simp only [Stage.index, hproducer, Bool.false_eq_true, if_false]
    omega
  | started => cases h
  | _ => cases hwaiting

/-- An event without a command ends a stage: it is the subscription that a client that only
publishes leaves out over TLS. -/
theorem index_mute {s : Stage} {k : Stream} {cfg : NsqdConfig} {st : State}
    (hwaiting : s.waiting = false) (hvalid : s.Valid client cfg)
    (htls : k = .tls → s.replied = true ∧ cfg.tlsV1 = true) (h : Mute client k s.state st) :
    ∃ t : Stage, t.state = st ∧ t.waiting = false ∧
      t.index client cfg = s.index client cfg + 1 := by
  cases s with
  | connected =>
    cases h
    cases (htls rfl).1
  | authorizing =>
    cases h with
    | auth hsecret =>
      have hsome := hvalid.2
      rw [hsecret] at hsome
      cases hsome
  | subscribing =>
    cases h with
    | producer hproducer =>
      refine ⟨.started, rfl, rfl, ?_⟩
      simp only [Stage.index, hproducer, (htls rfl).2, Bool.and_self, if_true]
      omega
  | ready => cases h
  | started => cases h
  | _ => cases hwaiting

/-- A state is in the stage that its state and `need_response` tell. -/
theorem At.index_eq {r : EventLoop} {s : Stage} {st : State} {need : Bool} {cfg : NsqdConfig}
    {c : ℕ} (h : At json client r s)
    (hstage : ∃ t : Stage, t.state = st ∧ t.waiting = need ∧ t.index client cfg = c)
    (hstate : r.conn.state = st) (hneed : r.conn.needResponse = need)
    (hcfg : r.nsqdConfig = cfg) : s.index client r.nsqdConfig = c := by
  obtain ⟨t, hst, hwaiting, hindex⟩ := hstage
  obtain rfl := h.eq_stage (hstate.trans hst.symm) (hneed.trans hwaiting.symm)
  rw [hcfg, hindex]

/-- A readable connection before the end of the handshake: bytes end a stage. -/
theorem count_readable {r r' : EventLoop} {s s' : Stage} {k : Stream} {e : Event}
    {evts : List Event} {io : Io} {x : Except Leave EventLoop} (h : At json client r s)
    (hphase : r.phase = phaseOf k (e :: evts)) (hmio : Ready.readable = r.interest)
    (hx : ReadOutcome json client k io r x) (hr' : after (phaseOf k) evts x = r')
    (halive : ¬ Crashed r') (h' : At json client r' s') :
    s'.index client r'.nsqdConfig = s.index client r.nsqdConfig +
        (if (io.read.toOption.any fun bs => !bs.isEmpty) = true ∧ s ≠ .started then 1 else 0) ∧
      (s = .started → s' = .started) := by
  subst hr'
  have hstage := h.stage_of_readable hmio
  have hbytes : ∀ {bs : List UInt8} {fs : List Frame} {c : Conn}, io.read = .ok bs →
      Conn.Fed k bs fs r.conn c → (io.read.toOption.any fun bs => !bs.isEmpty) = true := by
    intro bs fs c hread hfed
    simpa [hread, Except.toOption] using hfed.ne_nil
  cases hx with
  | panicked _ _ _ => exact absurd (.inl ⟨_, rfl⟩) halive
  | refused _ _ _ hhalt _ => exact absurd (crashed_of_refused hhalt) halive
  | noResponse _ _ _ _ => exact absurd (.inl ⟨_, rfl⟩) halive
  | eof hread =>
    obtain ⟨rfl, hindex⟩ := h.same_stage h' rfl rfl rfl
    exact ⟨by simpa [hread, Except.toOption] using hindex, id⟩
  | wouldBlock hread =>
    obtain ⟨rfl, hindex⟩ := h.same_stage h' rfl rfl rfl
    exact ⟨by simpa [hread, Except.toOption] using hindex, id⟩
  | @started bs fs c hread hfed hstate =>
    obtain rfl : s = .started := Stage.eq_started (h.state.symm.trans hstate)
    have hneed : c.needResponse = r.conn.needResponse := by rw [hfed.same]
    obtain ⟨rfl, hindex⟩ := h.same_stage h' hfed.state hneed rfl
    exact ⟨by simpa using hindex, id⟩
  | unasked _ hfed hawaits hstarted hsubscribe =>
    rcases hstage with rfl | hwaiting
    · exact absurd h.state hstarted
    · rw [h.awaits hphase hwaiting] at hawaits
      cases hawaits
  | producer _ hfed hk hstate hproducer =>
    rcases hstage with rfl | hwaiting
    · rw [h.state] at hstate
      cases hstate
    · have hawaits := h.awaits hphase hwaiting
      rw [hstate, hk] at hawaits
      simp [EventLoop.awaits, hproducer] at hawaits
  | @tlsSwitch bs fs c rs resp cfg hread hfed hk hstate hrs hjson htls =>
    rw [h.state] at hstate
    obtain rfl : s = .identified := by
      rcases hstage with rfl | hwaiting
      · cases hstate
      · exact Stage.eq_identified hwaiting hstate
    have hneed : c.needResponse = true := by
      rw [hfed.same]
      exact h.needResponse
    obtain rfl := h'.eq_stage (t := .switched) rfl hneed
    exact ⟨by simp [hbytes hread hfed, Stage.index], by simp⟩
  | @answered bs fs c rs resp cfg st hread hfed hrs hanswered =>
    rw [h.state] at hanswered
    rcases hstage with rfl | hwaiting
    · cases hanswered
    · have hstarted : s ≠ .started := by
        rintro rfl
        cases hwaiting
      have hindex := h'.index_eq (index_answered hwaiting h.valid hanswered) rfl rfl rfl
      exact ⟨by simpa [hbytes hread hfed, hstarted] using hindex, fun hs => absurd hs hstarted⟩

/-- A writable connection before the end of the handshake ends a stage. -/
theorem count_writable {r r' : EventLoop} {s s' : Stage} {k : Stream} {e : Event}
    {evts : List Event} {io : Io} {x : Except Leave EventLoop} (h : At json client r s)
    (hphase : r.phase = phaseOf k (e :: evts)) (hmio : Ready.writable = r.interest)
    (hx : WriteOutcome json client k io r x) (hr' : after (phaseOf k) evts x = r')
    (halive : ¬ Crashed r') (h' : At json client r' s') :
    s'.index client r'.nsqdConfig = s.index client r.nsqdConfig +
        (if s ≠ .started then 1 else 0) ∧ (s = .started → s' = .started) := by
  subst hr'
  have hstage := h.stage_of_writable hmio
  cases hx with
  | @command hs cmd st need buf hsends hbytes =>
    rw [h.state] at hsends
    have hstarted : s ≠ .started := by
      rintro rfl
      cases hsends
    have hindex := h'.index_eq
      (index_sends (hstage.resolve_left hstarted) h.valid hsends) rfl rfl rfl
    exact ⟨by simpa [hstarted] using hindex, fun hs => absurd hs hstarted⟩
  | @mute st hmute =>
    rw [h.state] at hmute
    have hstarted : s ≠ .started := by
      rintro rfl
      cases hmute
    have hwaiting := hstage.resolve_left hstarted
    have htls : k = .tls → s.replied = true ∧ r.nsqdConfig.tlsV1 = true := by
      rintro rfl
      exact h.over_tls (h.loop hphase)
    have hindex := h'.index_eq (index_mute hwaiting h.valid htls hmute) rfl
      (h.needResponse.trans hwaiting) rfl
    exact ⟨by simpa [hstarted] using hindex, fun hs => absurd hs hstarted⟩
  | @started r₁ c hstate hbeat hflushed =>
    obtain rfl : s = .started := Stage.eq_started (h.state.symm.trans hstate)
    have hsame := hbeat.same
    obtain ⟨rfl, hindex⟩ := h.same_stage h' (by
      simp only [after]
      rw [hflushed.conn, hsame]) (by
      simp only [after]
      rw [hflushed.conn, hsame]) (by
      simp only [after]
      rw [hsame])
    exact ⟨by simpa using hindex, id⟩
  | startedPanic _ _ _ _ _ => exact absurd (.inl ⟨_, rfl⟩) halive

/-- A productive event ends a stage before the last, and nothing else does.

**Proof sketch.** A step leads to some stage (`NsqClient.EventLoop.at_step`); which one it is shows
in the state and in `need_response`, and these change only with an event of the connection. -/
theorem count_step {r r' : EventLoop} {s : Stage} {l : Label} (h : At json client r s)
    (hmio : Mio r l) (hstep : step json client r l = some r') (halive : ¬ Crashed r') :
    ∃ s', At json client r' s' ∧
      s'.index client r'.nsqdConfig = s.index client r.nsqdConfig +
        (if productive r l = true ∧ s ≠ .started then 1 else 0) ∧
      (s = .started → s' = .started) := by
  obtain ⟨s', -, h'⟩ := at_step h hmio hstep halive
  refine ⟨s', h', ?_⟩
  have hquiet : productive r l = false → r'.conn.state = r.conn.state →
      r'.conn.needResponse = r.conn.needResponse → r'.nsqdConfig = r.nsqdConfig →
      s'.index client r'.nsqdConfig = s.index client r.nsqdConfig +
        (if productive r l = true ∧ s ≠ .started then 1 else 0) ∧
      (s = .started → s' = .started) := by
    intro hnot hstate hneed hcfg
    obtain ⟨rfl, hindex⟩ := h.same_stage h' hstate hneed hcfg
    exact ⟨by simpa [hnot] using hindex, id⟩
  cases step_outcome hstep with
  | send => exact hquiet rfl rfl rfl rfl
  | close => exact hquiet rfl rfl rfl rfl
  | pollPlain _ _ _ => exact hquiet rfl rfl rfl rfl
  | pollTls _ => exact hquiet rfl rfl rfl rfl
  | pollFailed => exact absurd (.inl ⟨_, rfl⟩) halive
  | @tls answer _ => cases answer <;> exact hquiet rfl rfl rfl rfl
  | event hphase hevent =>
    have hproductive := productive_of_phase hphase
    have hready := hmio _ (nextEvent_of_phase hphase)
    cases hevent with
    | close _ => exact hquiet (hproductive _) rfl rfl rfl
    | noClose _ => exact hquiet (hproductive _) rfl rfl rfl
    | @messages _ c hflushed =>
      refine hquiet (hproductive _) ?_ ?_ rfl
      · simp only [after]
        rw [hflushed.conn]
      · simp only [after]
        rw [hflushed.conn]
    | messagesPanic _ _ _ _ => exact absurd (.inl ⟨_, rfl⟩) halive
    | readable hread =>
      rw [hproductive]
      exact count_readable h hphase (hready rfl) hread rfl halive h'
    | writable hwrite =>
      rw [hproductive]
      simpa using count_writable h hphase (hready rfl) hwrite rfl halive h'

/-- As long as `mio` keeps to the interest registered last, take any run that has not panicked or
exited, with the number of productive events before the handshake was over.  There is a stage, one
that can be reached, that tells the state and whether a response is due; and it is the only such
stage to which this number of events leads, by the reply to `IDENTIFY`.  So the handshake is over
exactly after five of them, one more for the switch to TLS, two more for `AUTH` and two less for a
client that only publishes over TLS. -/
theorem handshake_count {cmds : List Cmd} {alloc : Alloc} {clock k : ℕ} {ls : List Label}
    {r : EventLoop}
    (hrun : Machine.Run (Machine.noting (step json client) tally) (fun x l => Mio x.1 l)
      (start client cmds alloc clock, 0) ls (r, k)) (halive : ¬ Crashed r) :
    ∃ s : Stage, s.Valid client r.nsqdConfig ∧ r.conn.state = s.state ∧
      r.conn.needResponse = s.waiting ∧
      (s.replied = true → reply json r.conn.log = some r.nsqdConfig) ∧
      s.index client r.nsqdConfig = k ∧
      (∀ t : Stage, t.Valid client r.nsqdConfig → t.index client r.nsqdConfig = k → t = s) ∧
      (r.conn.state = .started ↔ k =
        (if r.nsqdConfig.tlsV1 && client.isProducer then 3 else 5) +
          (if r.nsqdConfig.tlsV1 then 1 else 0) + if r.nsqdConfig.authRequired then 2 else 0) := by
  have hinv : ¬ Crashed r → ∃ s : Stage, At json client r s ∧ s.index client r.nsqdConfig = k := by
    refine hrun.invariant (fun x => ¬ Crashed x.1 → ∃ s : Stage, At json client x.1 s ∧
      s.index client x.1.nsqdConfig = x.2)
      (fun _ => ⟨.connected, at_start json client cmds alloc clock, rfl⟩) ?_
    rintro ⟨r, k⟩ l ⟨r', k'⟩ hinv hmio hstep halive
    obtain ⟨hstep, hnote⟩ := Machine.noting_eq_some.mp hstep
    simp only at hstep hnote halive
    obtain ⟨s, hat, hcount⟩ := hinv fun hcrashed => halive (crashed_of_step hcrashed hstep)
    obtain ⟨s', hat', hindex, -⟩ := count_step hat hmio hstep halive
    refine ⟨s', hat', ?_⟩
    simp only at hcount ⊢
    have hstarted : r.conn.state ≠ .started ↔ s ≠ .started := by
      rw [hat.state]
      exact not_congr ⟨Stage.eq_started, fun h => by rw [h]; rfl⟩
    rw [hnote, tally, hindex, hcount]
    simp only [hstarted]
    split_ifs <;> rfl
  obtain ⟨s, hat, hcount⟩ := hinv halive
  refine ⟨s, hat.valid, hat.state, hat.needResponse, fun hreplied => ?_, hcount,
    fun t ht hindex => Stage.index_inj ht hat.valid (hindex.trans hcount.symm), ?_⟩
  · have hreply := hat.reply
    rwa [if_pos hreplied] at hreply
  · rw [← Stage.index_started, ← hcount, hat.state]
    refine ⟨fun h => by rw [Stage.eq_started h], fun h => ?_⟩
    rw [Stage.index_inj (t := .started) hat.valid trivial h]
    rfl

set_option maxRecDepth 4000 in
/-- The five events of a handshake without TLS and `AUTH`, and the seven of one with `AUTH`. -/
theorem handshake_count_five :
    (∃ r : EventLoop, r.nsqdConfig = ⟨60000, false, false⟩ ∧ r.conn.state = .started) ∧
      ∃ r : EventLoop, r.nsqdConfig = ⟨60000, false, true⟩ ∧ r.conn.state = .started := by
  have hexec : Machine.exec (Machine.noting (step serde ⟨"t", "c", none, 1, .default none⟩) tally)
      (fun x l => Mio x.1 l) (start ⟨"t", "c", none, 1, .default none⟩ [] .exact 0, 0) joining =
      some (_, 5) := rfl
  have hexec' : Machine.exec
      (Machine.noting (step serde ⟨"t", "c", some "s", 1, .default none⟩) tally)
      (fun x l => Mio x.1 l) (start ⟨"t", "c", some "s", 1, .default none⟩ [] .exact 0, 0)
      (writing ++ replying (granted false true) ++ writing ++ replying "OK" ++ writing ++
        replying "OK" ++ writing) = some (_, 7) := rfl
  obtain ⟨-, -, -, -, -, -, -, hfive⟩ := handshake_count (Machine.Run.of_exec hexec)
    (not_crashed_of_plain rfl)
  obtain ⟨-, -, -, -, -, -, -, hseven⟩ := handshake_count (Machine.Run.of_exec hexec')
    (not_crashed_of_plain rfl)
  exact ⟨⟨_, rfl, hfive.mpr rfl⟩, ⟨_, rfl, hseven.mpr rfl⟩⟩

end EventLoop

end NsqClient
