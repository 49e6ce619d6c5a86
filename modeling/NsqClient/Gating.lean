import NsqClient.Lockstep

set_option relaxedAutoImplicit false
set_option autoImplicit false

/-!
# Commands from the channel

The branch of a writable connection writes the commands from the channel only once the handshake
is over.  The wake-up of the channel writes them in any state: it keeps to the order of the
handshake exactly if nothing is in the channel when it arrives too early.

## Main definitions

* `NsqClient.EventLoop.Gated` — a wake-up before the end of the handshake finds the channel empty.
* `NsqClient.Settled` — the handshake is over, as a log tells.
* `NsqClient.EventLoop.Opened` — what the first write is.

## Main results

* `NsqClient.EventLoop.gated_iff` — commands from the channel are written in `Started` only, if
  and only if every wake-up is gated; and then the connection opens with the magic and `IDENTIFY`,
  and the whole handshake precedes every command.
* `NsqClient.EventLoop.not_gated_pub` — a command published at once, written before `IDENTIFY`.
-/

namespace NsqClient

/-! ## Logs -/

/-- The magic, and `IDENTIFY`. -/
def opening (json : Json) (client : Client) : List UInt8 :=
  Utf8.asBytes VERSION ++ cmdBytes (NsqCmd.identify (json.toString client.config)).asCmd

/-- The handshake is over: the commands the reply asks for were written, and if it asks for TLS
there were bytes over TLS. -/
def Settled (json : Json) (client : Client) (log : List Obs) : Prop :=
  ∃ cfg, reply json log = some cfg ∧ handshakes log = script client (some cfg) ∧
    (cfg.tlsV1 = true → ∃ bs, .read .tls bs ∈ log)

/-- Before every command from the channel the handshake is over. -/
def UsersSettled (json : Json) (client : Client) (log : List Obs) : Prop :=
  ∀ pre st cmd post, log = pre ++ .user st cmd :: post → Settled json client pre

/-- What does not concern the handshake does not undo it. -/
theorem Settled.since {json : Json} {client : Client} {log log' : List Obs}
    (h : Settled json client log) (hquiet : Since Quiet log log') : Settled json client log' := by
  obtain ⟨cfg, hreply, hscript, htls⟩ := h
  obtain ⟨tail, rfl, htail⟩ := hquiet
  refine ⟨cfg, ?_, ?_, ?_⟩
  · rw [reply, findSome_of_quiet htail]
    exact hreply
  · have hnone : tail.filterMap handshakeOf = [] := by
      rw [List.filterMap_eq_nil_iff]
      exact fun o ho => (htail o ho).1
    rw [handshakes, List.filterMap_append, hnone, List.append_nil]
    exact hscript
  · intro hflag
    obtain ⟨bs, hmem⟩ := htls hflag
    exact ⟨bs, List.mem_append_left tail hmem⟩

/-- Entries that are not commands from the channel. -/
theorem UsersSettled.since {json : Json} {client : Client} {log log' : List Obs}
    (h : UsersSettled json client log)
    (hnone : Since (fun o => ∀ st cmd, o ≠ .user st cmd) log log') :
    UsersSettled json client log' := by
  obtain ⟨tail, rfl, htail⟩ := hnone
  intro pre st cmd post hsplit
  rcases split_append hsplit with ⟨post', hlog⟩ | ⟨mid, -, hmid⟩
  · exact h pre st cmd post' hlog
  · refine absurd rfl (htail (.user st cmd) ?_ st cmd)
    rw [hmid]
    exact List.mem_append_right mid List.mem_cons_self

/-- Entries that do not concern the handshake, after it. -/
theorem UsersSettled.settled {json : Json} {client : Client} {log log' : List Obs}
    (h : UsersSettled json client log) (hsettled : Settled json client log)
    (hquiet : Since Quiet log log') : UsersSettled json client log' := by
  obtain ⟨tail, rfl, htail⟩ := hquiet
  intro pre st cmd post hsplit
  rcases split_append hsplit with ⟨post', hlog⟩ | ⟨mid, rfl, hmid⟩
  · exact h pre st cmd post' hlog
  · refine hsettled.since ⟨mid, rfl, fun o ho => htail o ?_⟩
    rw [hmid]
    exact List.mem_append_left _ ho

/-- What the socket took of the first write comes first of all it accepted. -/
theorem taken_prefix_accepted {log : List Obs} {k : Stream} {offered : List UInt8}
    {res : WriteResult} (h : firstWrite log = some (k, offered, res)) :
    taken res offered <+: accepted log := by
  induction log with
  | nil => cases h
  | cons o log ih =>
    have happend : accepted (o :: log) = accepted [o] ++ accepted log :=
      accepted_append [o] log
    rw [firstWrite, List.findSome?_cons] at h
    cases hwrite : writeOf o with
    | none =>
      rw [hwrite] at h
      have hnil : accepted [o] = [] := by
        cases o with
        | wrote _ _ _ => cases hwrite
        | _ => rfl
      rw [happend, hnil]
      exact ih h
    | some w =>
      rw [hwrite] at h
      cases h
      have ho : o = .wrote k offered res := by
        cases o with
        | wrote _ _ _ =>
          cases hwrite
          rfl
        | _ => cases hwrite
      rw [happend, ho, accepted]
      simp

namespace EventLoop

variable {json : Json} {client : Client}

/-! ## What an event writes from the channel -/

/-- A wake-up before the end of the handshake finds the channel empty. -/
def Gated (r : EventLoop) : Label → Prop
  | .event _ => ∀ e ∈ r.nextEvent, e.token = .client → r.conn.state = .started ∨ r.conn.r = []
  | _ => True

instance (r : EventLoop) : (l : Label) → Decidable (Gated r l)
  | .event _ => inferInstanceAs (Decidable
      (∀ e ∈ r.nextEvent, e.token = .client → r.conn.state = .started ∨ r.conn.r = []))
  | .send _ => .isTrue trivial
  | .close => .isTrue trivial
  | .poll _ _ => .isTrue trivial
  | .pollFailed => .isTrue trivial
  | .tls _ => .isTrue trivial

/-- Commands from the channel are written once the handshake is over, or by a wake-up. -/
theorem onEvent_users {r : EventLoop} {k : Stream} {io : Io} {e : Event}
    {x : Except Leave EventLoop} (hx : EventOutcome json client k io r e x)
    (next : List Event → Phase) (evts : List Event) :
    Since (fun o => ∀ st cmd, o ≠ .user st cmd) r.conn.log (after next evts x).conn.log ∨
      ((r.conn.state = .started ∨ e.token = .client ∧ r.conn.r ≠ []) ∧
        Since (fun o => Quiet o ∧ ∀ st cmd, o = .user st cmd → st = r.conn.state) r.conn.log
          (after next evts x).conn.log) := by
  have hflush : ∀ {cmds : List Cmd} {c : Conn}, Conn.Flushed k cmds { r.conn with r := [] } c →
      Since (fun o => Quiet o ∧ ∀ st cmd, o = .user st cmd → st = r.conn.state) r.conn.log
        c.log := by
    intro cmds c hflushed
    refine hflushed.log.mono ?_
    rintro o (⟨cmd, -, rfl⟩ | ⟨offered, res, rfl⟩)
    · exact ⟨⟨rfl, rfl⟩, fun st cmd h => by cases h; rfl⟩
    · exact ⟨⟨rfl, rfl⟩, nofun⟩
  cases hx with
  | close _ => exact .inl (.snoc nofun)
  | noClose _ => exact .inl (.refl _ _)
  | messages hflushed =>
    by_cases hr : r.conn.r = []
    · have hc := hflushed.nil hr
      subst hc
      exact .inl (.refl _ _)
    · exact .inr ⟨.inr ⟨rfl, hr⟩, hflush hflushed⟩
  | messagesPanic _ hne hsub hflushed =>
    refine .inr ⟨.inr ⟨rfl, ?_⟩, hflush hflushed⟩
    intro hr
    rw [hr] at hsub
    exact hne (List.subset_nil.mp hsub)
  | readable hread =>
    refine .inl ((read_log hread next evts).mono ?_)
    rintro o (⟨bs, rfl⟩ | ⟨resp, rfl⟩ | rfl | rfl) <;> exact nofun
  | writable hwrite =>
    have hlog := write_log hwrite next evts
    by_cases hstate : r.conn.state = .started
    · refine .inr ⟨.inl hstate, hlog.mono ?_⟩
      rintro o (⟨offered, res, rfl⟩ | ho)
      · exact ⟨⟨rfl, rfl⟩, nofun⟩
      · rw [if_pos hstate] at ho
        rcases ho with rfl | ⟨cmd, rfl⟩
        · exact ⟨⟨rfl, rfl⟩, nofun⟩
        · exact ⟨⟨rfl, rfl⟩, fun st cmd h => by cases h; rfl⟩
    · refine .inl (hlog.mono ?_)
      rintro o (⟨offered, res, rfl⟩ | ho)
      · exact nofun
      · rw [if_neg hstate] at ho
        obtain ⟨h, need, rfl⟩ := ho
        exact nofun

/-- A step changes the log only by an event. -/
theorem log_of_step {r r' : EventLoop} {l : Label} (hstep : step json client r l = some r') :
    r'.conn.log = r.conn.log ∨ ∃ k e evts io x, l = .event io ∧
      r.phase = phaseOf k (e :: evts) ∧ EventOutcome json client k io r e x ∧
      r' = after (phaseOf k) evts x := by
  cases step_outcome hstep with
  | @tls answer _ => cases answer <;> exact .inl rfl
  | event hphase hevent => exact .inr ⟨_, _, _, _, _, rfl, hphase, hevent, rfl⟩
  | _ => exact .inl rfl

/-- A log only grows. -/
theorem log_prefix {r r' : EventLoop} {l : Label} (hstep : step json client r l = some r') :
    ∃ tail, r'.conn.log = r.conn.log ++ tail := by
  rcases log_of_step hstep with hlog | ⟨k, e, evts, io, x, -, -, hevent, rfl⟩
  · exact ⟨[], by rw [hlog, List.append_nil]⟩
  · obtain ⟨tail, hlog, -⟩ := onEvent_writes hevent (phaseOf k) evts
    exact ⟨tail, hlog⟩

/-! ## The condition is exact -/

/-- A gated step writes commands from the channel in `Started` only. -/
theorem users_of_gated {r r' : EventLoop} {l : Label} (hgated : Gated r l)
    (hstep : step json client r l = some r')
    (h : ∀ st cmd, .user st cmd ∈ r.conn.log → st = .started) :
    ∀ st cmd, .user st cmd ∈ r'.conn.log → st = .started := by
  intro st cmd hmem
  rcases log_of_step hstep with hlog | ⟨k, e, evts, io, x, rfl, hphase, hevent, rfl⟩
  · rw [hlog] at hmem
    exact h st cmd hmem
  · rcases onEvent_users hevent (phaseOf k) evts with
      ⟨tail, hlog, htail⟩ | ⟨hcause, tail, hlog, htail⟩
    · rw [hlog] at hmem
      rcases List.mem_append.mp hmem with hmem | hmem
      · exact h st cmd hmem
      · exact absurd rfl (htail _ hmem st cmd)
    · have hstarted : r.conn.state = .started := by
        rcases hcause with hstarted | ⟨htoken, hr⟩
        · exact hstarted
        · exact (hgated e (nextEvent_of_phase hphase) htoken).resolve_right hr
      rw [hlog] at hmem
      rcases List.mem_append.mp hmem with hmem | hmem
      · exact h st cmd hmem
      · rw [(htail _ hmem).2 st cmd rfl, hstarted]

/-- A step that is not gated writes a command from the channel before the end of the
handshake. -/
theorem user_of_not_gated {r r' : EventLoop} {l : Label} (hgated : ¬ Gated r l)
    (hstep : step json client r l = some r') :
    ∃ cmd, .user r.conn.state cmd ∈ r'.conn.log ∧ r.conn.state ≠ .started := by
  cases l with
  | event io =>
    simp only [Gated, not_forall, not_or] at hgated
    obtain ⟨e, hnext, htoken, hstarted, hr⟩ := hgated
    cases step_outcome hstep with
    | event hphase hevent =>
      rw [nextEvent_of_phase hphase] at hnext
      cases hnext
      cases hevent with
      | close _ => cases htoken
      | noClose _ => cases htoken
      | messages hflushed =>
        obtain ⟨cmd, cmds, hcmds⟩ := List.exists_cons_of_ne_nil hr
        refine ⟨cmd, hflushed.user cmd ?_, hstarted⟩
        rw [hcmds]
        exact List.mem_cons_self
      | messagesPanic _ hne _ hflushed =>
        obtain ⟨cmd, cmds, rfl⟩ := List.exists_cons_of_ne_nil hne
        exact ⟨cmd, hflushed.user cmd List.mem_cons_self, hstarted⟩
      | readable _ => cases htoken
      | writable _ => cases htoken
  | _ => exact absurd trivial hgated

/-! ## The opening, and what precedes a command from the channel -/

/-- The first write is that of the magic and `IDENTIFY` to the plain socket, or there is none yet
and the magic is in the write buffer. -/
def Opened (json : Json) (client : Client) (c : Conn) : Prop :=
  (handshakes c.log = [] ∧ firstWrite c.log = none ∧ c.wBuf.bytes = Utf8.asBytes VERSION ∧
    c.config = client.config) ∨
  ∃ res, firstWrite c.log = some (.plain, opening json client, res)

/-- A first write stays the first. -/
theorem firstWrite_append {log : List Obs} {w : Stream × List UInt8 × WriteResult}
    (tail : List Obs) (h : firstWrite log = some w) : firstWrite (log ++ tail) = some w := by
  rw [firstWrite, List.findSome?_append, ← firstWrite, h, Option.some_or]

/-- Without a handshake command the event loop is in the first stage. -/
theorem At.eq_connected {r : EventLoop} {s : Stage} (h : At json client r s)
    (hnil : handshakes r.conn.log = []) : s = .connected := by
  obtain ⟨free, hpaced, -⟩ := h.paced
  have hwritten := hpaced.handshakes_eq
  rw [hnil] at hwritten
  cases s with
  | connected => rfl
  | started => simp [Stage.written, script, greeting] at hwritten
  | _ => simp [Stage.written, greeting] at hwritten

/-- At the end of the handshake the log tells so. -/
theorem At.settled {r : EventLoop} {s : Stage} (h : At json client r s)
    (hstate : r.conn.state = .started) : Settled json client r.conn.log := by
  obtain rfl : s = .started := Stage.eq_started (h.state.symm.trans hstate)
  obtain ⟨free, hpaced, -⟩ := h.paced
  exact ⟨r.nsqdConfig, h.reply, hpaced.handshakes_eq, h.negotiated rfl⟩

/-- The first event of the connection is the write of the magic and `IDENTIFY`. -/
theorem opened_of_event {r : EventLoop} {s : Stage} {k : Stream} {e : Event} {evts : List Event}
    {io : Io} {x : Except Leave EventLoop} (hat : At json client r s)
    (h : Opened json client r.conn) (hphase : r.phase = phaseOf k (e :: evts))
    (hmio : e.token = .connection → e.readiness = r.interest)
    (hgated : e.token = .client → r.conn.state = .started ∨ r.conn.r = [])
    (hx : EventOutcome json client k io r e x) (next : List Event → Phase) :
    Opened json client (after next evts x).conn := by
  rcases h with ⟨hnil, hnone, hbuf, hconfig⟩ | ⟨res, hfirst⟩
  · obtain rfl := hat.eq_connected hnil
    have hstate : r.conn.state = .identify := hat.state
    have hinterest : r.interest = .writable := hat.interest nofun
    have hloop := hat.loop hphase
    have htls : r.tls = 0 := hat.tls
    cases hx with
    | close _ =>
      have hshutdown : handshakes (r.conn.log ++ [.shutdown k]) = [] := by
        rw [handshakes, List.filterMap_append, ← handshakes, hnil]
        rfl
      have hnone' : firstWrite (r.conn.log ++ [.shutdown k]) = none := by
        rw [firstWrite, List.findSome?_append, ← firstWrite, hnone]
        rfl
      exact .inl ⟨hshutdown, hnone', hbuf, hconfig⟩
    | noClose _ => exact .inl ⟨hnil, hnone, hbuf, hconfig⟩
    | messages hflushed =>
      rcases hgated rfl with hstarted | hr
      · rw [hstate] at hstarted
        cases hstarted
      · have hc := hflushed.nil hr
        subst hc
        exact .inl ⟨hnil, hnone, hbuf, hconfig⟩
    | messagesPanic _ hne hsub _ =>
      rcases hgated rfl with hstarted | hr
      · rw [hstate] at hstarted
        cases hstarted
      · rw [hr] at hsub
        exact absurd (List.subset_nil.mp hsub) hne
    | readable _ =>
      have hready := hmio rfl
      rw [hinterest] at hready
      cases hready
    | writable hwrite =>
      cases hwrite with
      | @command _ _ _ _ buf hsends hbytes =>
        rw [hstate] at hsends
        cases hsends
        have hopening : buf.bytes = opening json client := by
          rw [hbytes, hbuf, hconfig]
          rfl
        have hfirst : firstWrite (r.conn.log ++ [.handshake .identify r.conn.needResponse,
            .wrote .plain buf.bytes (io.writes 0)]) =
              some (.plain, opening json client, io.writes 0) := by
          rw [firstWrite, List.findSome?_append, ← firstWrite, hnone, Option.none_or, hopening]
          rfl
        exact .inr ⟨io.writes 0, hfirst⟩
      | mute hmute =>
        rw [hstate] at hmute
        cases hmute
        rw [htls] at hloop
        exact absurd hloop (by decide)
      | started hstarted _ _ =>
        rw [hstate] at hstarted
        cases hstarted
      | startedPanic hstarted _ _ _ _ =>
        rw [hstate] at hstarted
        cases hstarted
  · obtain ⟨tail, hlog, -⟩ := onEvent_writes hx next evts
    refine .inr ⟨res, ?_⟩
    rw [hlog]
    exact firstWrite_append tail hfirst

/-- The invariant of the gated runs. -/
structure Orderly (json : Json) (client : Client) (r : EventLoop) : Prop where
  stage : ¬ Crashed r → ∃ s, At json client r s
  users : UsersSettled json client r.conn.log
  opened : Opened json client r.conn

/-- A gated step keeps the invariant, as long as `mio` keeps to the interest registered last. -/
theorem orderly_step {r r' : EventLoop} {l : Label} (h : Orderly json client r) (hmio : Mio r l)
    (hgated : Gated r l) (hstep : step json client r l = some r') : Orderly json client r' where
  stage := by
    intro halive
    obtain ⟨s, hat⟩ := h.stage fun hcrashed => halive (crashed_of_step hcrashed hstep)
    obtain ⟨s', -, hat'⟩ := at_step hat hmio hstep halive
    exact ⟨s', hat'⟩
  users := by
    rcases log_of_step hstep with hlog | ⟨k, e, evts, io, x, rfl, hphase, hevent, rfl⟩
    · rw [hlog]
      exact h.users
    · rcases onEvent_users hevent (phaseOf k) evts with hnone | ⟨hcause, hsince⟩
      · exact h.users.since hnone
      · have hstarted : r.conn.state = .started := by
          rcases hcause with hstarted | ⟨htoken, hr⟩
          · exact hstarted
          · exact (hgated e (nextEvent_of_phase hphase) htoken).resolve_right hr
        obtain ⟨s, hat⟩ := h.stage (not_crashed_of_phase hphase)
        exact h.users.settled (hat.settled hstarted) (hsince.mono fun _ ho => ho.1)
  opened := by
    cases step_outcome hstep with
    | @tls answer _ => cases answer <;> exact h.opened
    | event hphase hevent =>
      obtain ⟨s, hat⟩ := h.stage (not_crashed_of_phase hphase)
      exact opened_of_event hat h.opened hphase (hmio _ (nextEvent_of_phase hphase))
        (hgated _ (nextEvent_of_phase hphase)) hevent _
    | _ => exact h.opened

/-- The event loop starts in order. -/
theorem orderly_start (json : Json) (client : Client) (cmds : List Cmd) (alloc : Alloc)
    (clock : ℕ) : Orderly json client (start client cmds alloc clock) where
  stage _ := ⟨.connected, at_start json client cmds alloc clock⟩
  users := by
    intro pre st cmd post hsplit
    simp [start, Conn.new, Conn.magic] at hsplit
  opened := by
    refine .inl ⟨rfl, rfl, ?_, rfl⟩
    change (writeMagic (.new alloc.slack) VERSION).bytes = _
    rw [bytes_writeMagic]
    rfl

/-- In every run, commands from the channel are written in `Started` only if and only if every
wake-up before it finds the channel empty.  In such a run, as long as `mio` keeps to the interest
registered last, the connection opens with the magic and `IDENTIFY`, on the plain socket and in
one write, so that these are the first bytes the peer receives if that write takes all of them;
and before every command from the channel the handshake is over.

**Proof sketch.** The log only grows, so the last state tells for all of them; a wake-up that
finds a command writes it in the state it finds.  For the second part, the stage of the handshake
tells what is in the log when the state is `Started`. -/
theorem gated_iff {cmds : List Cmd} {alloc : Alloc} {clock : ℕ} {ls : List Label} {r : EventLoop}
    (hrun : Machine.Run (step json client) Machine.anything (start client cmds alloc clock) ls r) :
    ((∀ st cmd, .user st cmd ∈ r.conn.log → st = .started) ↔
      Machine.Run (step json client) Gated (start client cmds alloc clock) ls r) ∧
    (Machine.Run (step json client) Gated (start client cmds alloc clock) ls r →
      Machine.Run (step json client) Mio (start client cmds alloc clock) ls r →
      (∀ k offered res, firstWrite r.conn.log = some (k, offered, res) →
        k = .plain ∧ offered = opening json client ∧
        (TakesAll res offered → opening json client <+: accepted r.conn.log)) ∧
      UsersSettled json client r.conn.log) := by
  refine ⟨⟨?_, ?_⟩, ?_⟩
  · induction hrun with
    | nil => exact fun _ => .nil
    | @snoc ls t u l _ _ hstep ih =>
      intro husers
      obtain ⟨tail, hlog⟩ := log_prefix hstep
      have hbefore : ∀ st cmd, .user st cmd ∈ t.conn.log → st = .started := by
        intro st cmd hmem
        refine husers st cmd ?_
        rw [hlog]
        exact List.mem_append_left tail hmem
      refine .snoc (ih hbefore) ?_ hstep
      by_contra hgated
      obtain ⟨cmd, hmem, hstate⟩ := user_of_not_gated hgated hstep
      exact hstate (husers _ cmd hmem)
  · intro hgated
    refine hgated.invariant (fun t => ∀ st cmd, .user st cmd ∈ t.conn.log → st = .started) ?_
      fun _ _ _ h hok hstep => users_of_gated hok hstep h
    intro st cmd hmem
    simp [start, Conn.new, Conn.magic] at hmem
  · intro hgated hmio
    have horderly : Orderly json client r := (hgated.and hmio).2.invariant (Orderly json client)
      (orderly_start json client cmds alloc clock)
      fun _ _ _ h hok hstep => orderly_step h hok.2 hok.1 hstep
    refine ⟨?_, horderly.users⟩
    intro k offered res hfirst
    rcases horderly.opened with ⟨-, hnone, -, -⟩ | ⟨res', hopened⟩
    · rw [hnone] at hfirst
      cases hfirst
    · rw [hfirst] at hopened
      cases hopened
      refine ⟨rfl, rfl, fun htakes => ?_⟩
      have htaken := taken_prefix_accepted hfirst
      rwa [htakes] at htaken

set_option maxRecDepth 4000 in
/-- A command that waits in the channel from the start, and a wake-up for it once the handshake
over the plain socket is done. -/
theorem gated_iff_nop :
    ∃ r : EventLoop, .user .started NsqCmd.nop.asCmd ∈ r.conn.log ∧
      opening serde ⟨"t", "c", none, 1, .default none⟩ <+: accepted r.conn.log := by
  have hexec : Machine.exec (step serde ⟨"t", "c", none, 1, .default none⟩)
      (fun r l => Gated r l ∧ Mio r l)
      (start ⟨"t", "c", none, 1, .default none⟩ [NsqCmd.nop.asCmd] .exact 0)
      (joining ++
        [.poll [⟨.client, .writable⟩] 0, .event ⟨.ok [], fun _ => .ok 1000, true⟩]) = some _ := rfl
  have hrun := Machine.Run.of_exec hexec
  have hgated := gated_iff (hrun.mono fun _ _ _ => trivial)
  have hopening := hgated.2 (hrun.mono fun _ _ h => h.1) (hrun.mono fun _ _ h => h.2)
  refine ⟨_, ?_, (hopening.1 .plain _ (.ok 1000) rfl).2.2 ?_⟩
  · decide
  · decide

/-- A message published before `run` starts, and its wake-up before the first event of the
connection: the peer is sent the magic and the message, and no `IDENTIFY`. -/
theorem not_gated_pub :
    ∃ r : EventLoop, Machine.Run (step serde ⟨"t", "c", none, 1, .default none⟩) Mio
        (start ⟨"t", "c", none, 1, .default none⟩ [(NsqCmd.pub "t" [109]).asCmd] .exact 0)
        [.poll [⟨.client, .writable⟩] 0, .event ⟨.ok [], fun _ => .ok 100, true⟩] r ∧
      .user .identify (NsqCmd.pub "t" [109]).asCmd ∈ r.conn.log ∧
      accepted r.conn.log = Utf8.asBytes "  V2PUB t\n" ++ [0, 0, 0, 1, 109] ∧
      handshakes r.conn.log = [] := by
  have hexec : Machine.exec (step serde ⟨"t", "c", none, 1, .default none⟩) Mio
        (start ⟨"t", "c", none, 1, .default none⟩ [(NsqCmd.pub "t" [109]).asCmd] .exact 0)
        [.poll [⟨.client, .writable⟩] 0, .event ⟨.ok [], fun _ => .ok 100, true⟩] = some _ := rfl
  exact ⟨_, Machine.Run.of_exec hexec, by decide, by decide, rfl⟩

end EventLoop

end NsqClient
