import NsqClient.Steps

set_option relaxedAutoImplicit false
set_option autoImplicit false

/-!
# The handshake in lockstep

The handshake is a sequence of stages: a command is written in one stage, its response is due in
the next.  The state, `need_response`, the interest of the registration and the `tls` flag of the
event loop are all determined by the stage it is in, as long as `mio` keeps to the readiness that
was registered last.

## Main definitions

* `NsqClient.Stage`, `NsqClient.Stage.Valid` — the stages, and when one can be reached.
* `NsqClient.Paced` — a log in which the handshake commands are written in lockstep.
* `NsqClient.EventLoop.At` — the event loop is in a stage.

## Main results

* `NsqClient.EventLoop.at_step` — a step leads to the same stage or to a later one.
* `NsqClient.EventLoop.handshake_lockstep` — the order of the states and of the commands, and
  what precedes each command.
-/

namespace NsqClient

/-! ## Commands and responses in turn -/

/-- A command of the handshake other than the first follows another one, and between the two a
call of `get_response` returned a text. -/
def Acknowledged (log : List Obs) : Prop :=
  ∀ pre h need post, log = pre ++ .handshake h need :: post → h ≠ .identify →
    ∃ before h' need' between resp, pre = before ++ .handshake h' need' :: between ∧
      (∀ o ∈ between, handshakeOf o = none) ∧ Obs.response (.response resp) ∈ between

/-- The log `log` holds the handshake commands `hs`, each written with `need_response` unset and
with a response between it and the one before; `free` tells whether there was a response since the
last one. -/
inductive Paced : List Obs → List Handshake → Bool → Prop where
  | nil : Paced [] [] true
  | quiet {log : List Obs} {hs : List Handshake} {free : Bool} {o : Obs} :
      Paced log hs free → Quiet o → Paced (log ++ [o]) hs free
  | response {log : List Obs} {hs : List Handshake} {free : Bool} {resp : String} :
      Paced log hs free → Paced (log ++ [.response (.response resp)]) hs true
  | handshake {log : List Obs} {hs : List Handshake} {h : Handshake} :
      Paced log hs true → (hs = [] ↔ h = .identify) →
      Paced (log ++ [.handshake h false]) (hs ++ [h]) false

namespace Paced

variable {log : List Obs} {hs : List Handshake} {free : Bool}

theorem quiets {tail : List Obs} (h : Paced log hs free) (htail : ∀ o ∈ tail, Quiet o) :
    Paced (log ++ tail) hs free := by
  induction tail generalizing log with
  | nil => rwa [List.append_nil]
  | cons o tail ih =>
    rw [← List.singleton_append, ← List.append_assoc]
    refine ih (.quiet h (htail o List.mem_cons_self)) ?_
    exact fun o' ho' => htail o' (List.mem_cons_of_mem o ho')

theorem handshakes_eq (h : Paced log hs free) : handshakes log = hs := by
  induction h with
  | nil => rfl
  | quiet _ hquiet ih =>
    rw [handshakes, List.filterMap_append, ← handshakes, ih]
    simp [hquiet.1]
  | response _ ih =>
    rw [handshakes, List.filterMap_append, ← handshakes, ih]
    simp [handshakeOf]
  | handshake _ _ ih =>
    rw [handshakes, List.filterMap_append, ← handshakes, ih]
    simp [handshakeOf]

/-- No command is written while `need_response` is set. -/
theorem unneeded (h : Paced log hs free) {cmd : Handshake} {need : Bool}
    (hmem : Obs.handshake cmd need ∈ log) : need = false := by
  induction h with
  | nil => cases hmem
  | quiet _ hquiet ih =>
    rcases List.mem_append.mp hmem with hmem | hmem
    · exact ih hmem
    · rw [← List.mem_singleton.mp hmem] at hquiet
      cases hquiet.1
  | response _ ih =>
    rcases List.mem_append.mp hmem with hmem | hmem
    · exact ih hmem
    · cases List.mem_singleton.mp hmem
  | handshake _ _ ih =>
    rcases List.mem_append.mp hmem with hmem | hmem
    · exact ih hmem
    · cases List.mem_singleton.mp hmem
      rfl

/-- Once there is a command, what follows the last one; it holds a response if `free` is set. -/
theorem last (h : Paced log hs free) (hne : hs ≠ []) :
    ∃ before cmd need between, log = before ++ .handshake cmd need :: between ∧
      (∀ o ∈ between, handshakeOf o = none) ∧
      (free = true → ∃ resp, Obs.response (.response resp) ∈ between) := by
  induction h with
  | nil => exact absurd rfl hne
  | @quiet log hs free o _ hquiet ih =>
    obtain ⟨before, cmd, need, between, rfl, hnone, hresp⟩ := ih hne
    refine ⟨before, cmd, need, between ++ [o], by simp, ?_, ?_⟩
    · intro o' ho'
      rcases List.mem_append.mp ho' with ho' | ho'
      · exact hnone o' ho'
      · rw [List.mem_singleton.mp ho']
        exact hquiet.1
    · intro hfree
      obtain ⟨resp, hmem⟩ := hresp hfree
      exact ⟨resp, List.mem_append_left [o] hmem⟩
  | @response log hs free resp _ ih =>
    obtain ⟨before, cmd, need, between, rfl, hnone, -⟩ := ih hne
    refine ⟨before, cmd, need, between ++ [.response (.response resp)], by simp, ?_, ?_⟩
    · intro o' ho'
      rcases List.mem_append.mp ho' with ho' | ho'
      · exact hnone o' ho'
      · rw [List.mem_singleton.mp ho']
        rfl
    · exact fun _ => ⟨resp, List.mem_append_right between (List.mem_singleton_self _)⟩
  | @handshake log hs cmd _ _ _ => exact ⟨log, cmd, false, [], rfl, nofun, nofun⟩

/-- In a split of a log that ends in `o`, the entry split off is `o`, or `o` is in the rest. -/
theorem split_snoc {log pre post : List Obs} {o x : Obs} (h : log ++ [o] = pre ++ x :: post) :
    (log = pre ∧ o = x) ∨ ∃ post', log = pre ++ x :: post' := by
  rcases List.eq_nil_or_concat post with rfl | ⟨post', y, rfl⟩
  · obtain ⟨hpre, hx⟩ := List.append_inj' h rfl
    exact .inl ⟨hpre, List.singleton_inj.mp hx⟩
  · rw [List.concat_eq_append, ← List.cons_append, ← List.append_assoc] at h
    exact .inr ⟨post', (List.append_inj' h rfl).1⟩

/-- Every command but the first follows a response to the one before. -/
theorem acknowledged (h : Paced log hs free) : Acknowledged log := by
  induction h with
  | nil =>
    intro pre cmd need post hsplit
    exact absurd hsplit.symm (by simp)
  | quiet _ hquiet ih =>
    intro pre cmd need post hsplit
    rcases split_snoc hsplit with ⟨-, rfl⟩ | ⟨post', hsplit⟩
    · cases hquiet.1
    · exact ih pre cmd need post' hsplit
  | response _ ih =>
    intro pre cmd need post hsplit
    rcases split_snoc hsplit with ⟨-, hresp⟩ | ⟨post', hsplit⟩
    · cases hresp
    · exact ih pre cmd need post' hsplit
  | handshake hpaced hfirst ih =>
    intro pre cmd need post hsplit hcmd
    rcases split_snoc hsplit with ⟨rfl, hlast⟩ | ⟨post', hsplit⟩
    · cases hlast
      obtain ⟨before, cmd', need', between, hlog, hnone, hresp⟩ :=
        hpaced.last (fun hnil => hcmd (hfirst.mp hnil))
      obtain ⟨resp, hmem⟩ := hresp rfl
      exact ⟨before, cmd', need', between, resp, hlog, hnone, hmem⟩
    · exact ih pre cmd need post' hsplit hcmd

end Paced

/-! ## Stages -/

/-- The states in the order of the handshake. -/
def stateOrder : List State := [.start, .identify, .tls, .auth, .subscribe, .rdy, .started]

/-- The stages of the handshake. -/
inductive Stage where
  /-- `IDENTIFY` is next. -/
  | connected
  /-- The reply to `IDENTIFY` is due. -/
  | identified
  /-- The response over TLS is due. -/
  | switched
  /-- `AUTH` is next. -/
  | authorizing
  /-- The response to `AUTH` is due. -/
  | authorized
  /-- `SUB` is next. -/
  | subscribing
  /-- The response to `SUB` is due. -/
  | subscribed
  /-- `RDY` is next. -/
  | ready
  /-- The handshake is over. -/
  | started
  deriving DecidableEq

/-- `IDENTIFY`, and `AUTH` if the reply asks for it. -/
def greeting (cfg : NsqdConfig) : List Handshake :=
  .identify :: if cfg.authRequired then [.auth] else []

/-- The commands of the whole handshake.  Over TLS a client that only publishes does not
subscribe. -/
def script (client : Client) : Option NsqdConfig → List Handshake
  | none => [.identify]
  | some cfg =>
    greeting cfg ++ if cfg.tlsV1 && client.isProducer then [] else [.subscribe, .rdy]

namespace Stage

/-- The state in a stage. -/
def state : Stage → State
  | connected => .identify
  | identified => .identify
  | switched => .tls
  | authorizing => .auth
  | authorized => .auth
  | subscribing => .subscribe
  | subscribed => .subscribe
  | ready => .rdy
  | started => .started

/-- Whether a response is due. -/
def waiting : Stage → Bool
  | identified => true
  | switched => true
  | authorized => true
  | subscribed => true
  | _ => false

/-- Whether the reply to `IDENTIFY` was taken. -/
def replied : Stage → Bool
  | connected => false
  | identified => false
  | _ => true

/-- Whether the TLS handshake, if there is one, lies before the last response. -/
def negotiated : Stage → Bool
  | connected => false
  | identified => false
  | switched => false
  | _ => true

/-- The commands written up to a stage. -/
def written (client : Client) (cfg : NsqdConfig) : Stage → List Handshake
  | connected => []
  | identified => [.identify]
  | switched => [.identify]
  | authorizing => [.identify]
  | authorized => [.identify, .auth]
  | subscribing => greeting cfg
  | subscribed => greeting cfg ++ [.subscribe]
  | ready => greeting cfg ++ [.subscribe]
  | started => script client (some cfg)

/-- When a stage can be reached: `AUTH` is for those who ask and who have a secret, the switch to
TLS is for those who ask, and over TLS a client that only publishes does not subscribe. -/
def Valid (client : Client) (cfg : NsqdConfig) : Stage → Prop
  | switched => cfg.tlsV1 = true
  | authorizing => cfg.authRequired = true ∧ client.secret.isSome = true
  | authorized => cfg.authRequired = true
  | subscribed => (cfg.tlsV1 && client.isProducer) = false
  | ready => (cfg.tlsV1 && client.isProducer) = false
  | _ => True

theorem eq_identified {s : Stage} (hwaiting : s.waiting = true) (hstate : s.state = .identify) :
    s = .identified := by
  cases s with
  | identified => rfl
  | connected => cases hwaiting
  | _ => cases hstate

theorem eq_started {s : Stage} (h : s.state = .started) : s = .started := by
  cases s with
  | started => rfl
  | _ => cases h

theorem state_mem (s : Stage) : s.state ∈ stateOrder := by
  cases s <;> decide

/-- The commands written are a beginning of the script. -/
theorem written_prefix {client : Client} {cfg : NsqdConfig} {s : Stage} (h : s.Valid client cfg) :
    s.written client cfg <+: script client (if s.replied then some cfg else none) := by
  have hgreeting : greeting cfg <+: script client (some cfg) := List.prefix_append _ _
  have hidentify : [Handshake.identify] <+: script client (some cfg) :=
    List.IsPrefix.trans ⟨_, rfl⟩ hgreeting
  have hsubscribe : (cfg.tlsV1 && client.isProducer) = false →
      greeting cfg ++ [.subscribe] <+: script client (some cfg) := by
    intro hp
    refine ⟨[.rdy], ?_⟩
    rw [script, hp]
    simp
  cases s with
  | connected => exact List.nil_prefix
  | identified => exact List.prefix_refl _
  | switched => exact hidentify
  | authorizing => exact hidentify
  | authorized =>
    have hauth : greeting cfg = [.identify, .auth] := by
      rw [greeting, show cfg.authRequired = true from h, if_pos rfl]
    rw [written, ← hauth]
    exact hgreeting
  | subscribing => exact hgreeting
  | subscribed => exact hsubscribe h
  | ready => exact hsubscribe h
  | started => exact List.prefix_refl _

end Stage

/-- No command occurs twice in the script. -/
theorem script_nodup (client : Client) (cfg : Option NsqdConfig) : (script client cfg).Nodup := by
  cases cfg with
  | none => simp [script]
  | some cfg =>
    simp only [script, greeting]
    split_ifs <;> decide

namespace EventLoop

variable {json : Json} {client : Client}

/-! ## The event loop in a stage -/

/-- The phases in which the event loop can be in a stage. -/
def Home (tls : UInt8) (s : Stage) : Phase → Prop
  | .plain evts => tls = 0 ∨ (evts = [] ∧ s = .switched)
  | .handshaking => s = .switched
  | .tls _ => tls = 1
  | .done _ => True

/-- The event loop is in the stage `s`. -/
structure At (json : Json) (client : Client) (r : EventLoop) (s : Stage) : Prop where
  state : r.conn.state = s.state
  needResponse : r.conn.needResponse = s.waiting
  interest : s ≠ .started → r.interest = if s.waiting then .readable else .writable
  tls : r.tls = if s.replied && r.nsqdConfig.tlsV1 then 1 else 0
  home : Home r.tls s r.phase
  valid : s.Valid client r.nsqdConfig
  reply : if s.replied then reply json r.conn.log = some r.nsqdConfig
    else r.conn.log.findSome? responseOf = none
  paced : ∃ free, Paced r.conn.log (s.written client r.nsqdConfig) free ∧
    (s ≠ .started → s.waiting = false → free = true)
  negotiated : s.negotiated = true → r.nsqdConfig.tlsV1 = true →
    ∃ bs, .read .tls bs ∈ r.conn.log

/-- The event loop starts in the first stage. -/
theorem at_start (json : Json) (client : Client) (r : List Cmd) (alloc : Alloc) (clock : ℕ) :
    At json client (start client r alloc clock) .connected where
  state := rfl
  needResponse := rfl
  interest _ := rfl
  tls := rfl
  home := .inl rfl
  valid := trivial
  reply := rfl
  paced := ⟨true, .nil, fun _ _ => rfl⟩
  negotiated := nofun

/-- What does not concern the handshake does not change the stage. -/
theorem At.quiet {r r' : EventLoop} {s : Stage} (h : At json client r s)
    (hstate : r'.conn.state = r.conn.state) (hneed : r'.conn.needResponse = r.conn.needResponse)
    (hcfg : r'.nsqdConfig = r.nsqdConfig) (htls : r'.tls = r.tls)
    (hinterest : s ≠ .started → r'.interest = r.interest) (hhome : Home r.tls s r'.phase)
    (hlog : Since Quiet r.conn.log r'.conn.log) :
    At json client r' s := by
  obtain ⟨tail, hlog, hquiet⟩ := hlog
  obtain ⟨free, hpaced, hfree⟩ := h.paced
  refine ⟨?_, ?_, ?_, ?_, ?_, ?_, ?_, ⟨free, ?_, hfree⟩, ?_⟩
  · rw [hstate, h.state]
  · rw [hneed, h.needResponse]
  · intro hs
    rw [hinterest hs, h.interest hs]
  · rw [htls, hcfg, h.tls]
  · rwa [htls]
  · rw [hcfg]
    exact h.valid
  · unfold NsqClient.reply
    rw [hlog, findSome_of_quiet hquiet, hcfg]
    exact h.reply
  · rw [hlog, hcfg]
    exact hpaced.quiets hquiet
  · rw [hlog, hcfg]
    intro hs htls
    obtain ⟨bs, hmem⟩ := h.negotiated hs htls
    exact ⟨bs, List.mem_append_left tail hmem⟩

/-- The loop that handles an event is over the stream the `tls` flag tells. -/
theorem At.loop {r : EventLoop} {s : Stage} {k : Stream} {e : Event} {evts : List Event}
    (h : At json client r s) (hphase : r.phase = phaseOf k (e :: evts)) :
    r.tls = if k = .plain then 0 else 1 := by
  have hhome := h.home
  cases k with
  | plain =>
    rw [hphase] at hhome
    rcases hhome with htls | ⟨hnil, -⟩
    · exact htls
    · cases hnil
  | tls =>
    rw [hphase] at hhome
    exact hhome

/-- In either loop every stage is at home. -/
theorem home_phaseOf {tls : UInt8} {k : Stream} (h : tls = if k = .plain then 0 else 1) (s : Stage)
    (evts : List Event) : Home tls s (phaseOf k evts) := by
  cases k with
  | plain => exact .inl h
  | tls => exact h

/-- The reply to `IDENTIFY` was taken before the TLS loop was entered, and it asked for TLS. -/
theorem At.over_tls {r : EventLoop} {s : Stage} (h : At json client r s) (htls : r.tls = 1) :
    s.replied = true ∧ r.nsqdConfig.tlsV1 = true := by
  have hflag := h.tls
  rw [htls] at hflag
  split_ifs at hflag with hcond
  · exact Bool.and_eq_true_iff.mp hcond
  · exact absurd hflag (by decide)

/-- After a reply that asks for TLS, events are handled by the TLS loop. -/
theorem At.stream {r : EventLoop} {s : Stage} {k : Stream} {e : Event} {evts : List Event}
    (h : At json client r s) (hphase : r.phase = phaseOf k (e :: evts))
    (hreplied : s.replied = true) (htls : r.nsqdConfig.tlsV1 = true) : k = .tls := by
  have hone : r.tls = 1 := by
    rw [h.tls, hreplied, htls]
    rfl
  have hloop := h.loop hphase
  rw [hone] at hloop
  cases k with
  | plain => exact absurd hloop (by decide)
  | tls => rfl

/-- A response leads to a stage in which a command is next. -/
theorem At.answer {r : EventLoop} {s : Stage} {k : Stream} {e : Event} {evts : List Event}
    {c : Conn} {bs : List UInt8} {rs : List Response} {resp : String} {cfg : NsqdConfig}
    {t : UInt64} (h : At json client r s) (s' : Stage) (hphase : r.phase = phaseOf k (e :: evts))
    (hlog : c.log = r.conn.log ++ [.read k bs])
    (hcfg : (s.replied = true ∧ cfg = r.nsqdConfig) ∨
      (s.replied = false ∧ json.fromStr resp = some cfg ∧ cfg.tlsV1 = false))
    (hwaiting : s'.waiting = false) (hreplied : s'.replied = true) (hvalid : s'.Valid client cfg)
    (hwritten : s'.written client cfg = s.written client r.nsqdConfig) :
    At json client { r with
      nsqdConfig := cfg
      conn := { c with
        responses := rs
        msgTimeout := t
        state := s'.state
        needResponse := false
        log := c.log ++ [.response (.response resp)] }
      interest := .writable
      phase := phaseOf k evts } s' := by
  obtain ⟨free, hpaced, -⟩ := h.paced
  refine ⟨rfl, hwaiting.symm, ?_, ?_, home_phaseOf (h.loop hphase) s' evts, hvalid, ?_,
    ⟨true, ?_, fun _ _ => rfl⟩, ?_⟩
  · intro
    rw [hwaiting]
    rfl
  · rw [hreplied]
    rcases hcfg with ⟨hs, rfl⟩ | ⟨hs, -, hplain⟩
    · rw [h.tls, hs]
    · have htls := h.tls
      rw [hs] at htls
      rw [htls, hplain]
      rfl
  · have hreply := h.reply
    simp only [hreplied, if_true, NsqClient.reply, hlog]
    rw [List.findSome?_append, findSome_of_quiet (quiet_read k bs)]
    rcases hcfg with ⟨hs, rfl⟩ | ⟨hs, hjson, -⟩
    · rw [hs, if_pos rfl, NsqClient.reply] at hreply
      obtain ⟨first, hfirst, hjson⟩ := Option.bind_eq_some_iff.mp hreply
      rw [hfirst]
      exact hjson
    · rw [hs, if_neg (by decide)] at hreply
      rw [hreply]
      exact hjson
  · rw [hwritten]
    simp only [hlog]
    exact .response (hpaced.quiets (quiet_read k bs))
  · intro _ hflag
    refine ⟨bs, List.mem_append_left _ ?_⟩
    have hk : k = .tls := by
      rcases hcfg with ⟨hs, rfl⟩ | ⟨-, -, hplain⟩
      · exact h.stream hphase hs hflag
      · rw [hplain] at hflag
        cases hflag
    rw [hlog, hk]
    exact List.mem_append_right _ (List.mem_singleton_self _)

/-- A command leads to a stage in which a response is due, or to the end of the handshake. -/
theorem At.command {r : EventLoop} {s : Stage} {k : Stream} {e : Event} {evts : List Event}
    {buf : BytesMut} {cmd : Handshake} {offered : List UInt8} {res : WriteResult}
    (h : At json client r s) (s' : Stage) (hphase : r.phase = phaseOf k (e :: evts))
    (hstarted : s ≠ .started) (hwaiting : s.waiting = false)
    (hreplied : s'.replied = s.replied) (hnegotiated : s'.negotiated = s.negotiated)
    (hvalid : s'.Valid client r.nsqdConfig) (hnext : s' = .started ∨ s'.waiting = true)
    (hfirst : s.written client r.nsqdConfig = [] ↔ cmd = .identify)
    (hwritten : s'.written client r.nsqdConfig = s.written client r.nsqdConfig ++ [cmd]) :
    At json client { r with
      conn := { r.conn with
        wBuf := buf
        needResponse := s'.waiting
        state := s'.state
        log := r.conn.log ++ [.handshake cmd r.conn.needResponse, .wrote k offered res] }
      interest := if s'.waiting then .readable else .writable
      phase := phaseOf k evts } s' := by
  obtain ⟨free, hpaced, hfree⟩ := h.paced
  obtain rfl := hfree hstarted hwaiting
  have hneed := h.needResponse
  rw [hwaiting] at hneed
  have hnone : List.findSome? responseOf [.handshake cmd r.conn.needResponse,
      .wrote k offered res] = none := rfl
  refine ⟨rfl, rfl, fun _ => rfl, ?_, home_phaseOf (h.loop hphase) s' evts, hvalid, ?_,
    ⟨false, ?_, ?_⟩, ?_⟩
  · rw [hreplied, h.tls]
  · have hreply := h.reply
    simp only [hreplied, NsqClient.reply] at hreply ⊢
    rw [List.findSome?_append, hnone, Option.or_none]
    exact hreply
  · rw [hwritten, hneed]
    have hpaced' : Paced _ _ false := .quiet (.handshake hpaced hfirst)
      (show Quiet (.wrote k offered res) from ⟨rfl, rfl⟩)
    simpa using hpaced'
  · intro hs' hwaiting'
    rcases hnext with hnext | hnext
    · exact absurd hnext hs'
    · rw [hwaiting'] at hnext
      cases hnext
  · intro hs' htls
    obtain ⟨bs, hmem⟩ := h.negotiated (hnegotiated.symm.trans hs') htls
    exact ⟨bs, List.mem_append_left _ hmem⟩

/-- The stage before a read: one in which a response is due, or the last. -/
theorem At.stage_of_readable {r : EventLoop} {s : Stage} (h : At json client r s)
    (hmio : Ready.readable = r.interest) : s = .started ∨ s.waiting = true := by
  by_cases hs : s = .started
  · exact .inl hs
  · have hinterest := h.interest hs
    rw [← hmio] at hinterest
    split_ifs at hinterest with hwaiting
    exact .inr hwaiting

/-- The stage before a write: one in which a command is next, or the last. -/
theorem At.stage_of_writable {r : EventLoop} {s : Stage} (h : At json client r s)
    (hmio : Ready.writable = r.interest) : s = .started ∨ s.waiting = false := by
  by_cases hs : s = .started
  · exact .inl hs
  · have hinterest := h.interest hs
    rw [← hmio] at hinterest
    split_ifs at hinterest with hwaiting
    exact .inr (Bool.not_eq_true _ ▸ hwaiting)

/-- After a response comes `AUTH` or `SUB`. -/
theorem stage_of_authChoice {cfg : NsqdConfig} {st : State} (h : AuthChoice client cfg st) :
    ∃ s' : Stage, s'.state = st ∧ s'.waiting = false ∧ s'.replied = true ∧
      s'.Valid client cfg ∧ s'.written client cfg = [.identify] ∧
      stateOrder.idxOf .tls ≤ stateOrder.idxOf st := by
  rcases h with ⟨hauth, hsecret, rfl⟩ | ⟨hauth, rfl⟩
  · exact ⟨.authorizing, rfl, rfl, rfl, ⟨hauth, hsecret⟩, rfl, by decide⟩
  · refine ⟨.subscribing, rfl, rfl, rfl, trivial, ?_, by decide⟩
    simp [Stage.written, greeting, hauth]

/-- In a stage in which a response is due, `get_response` is called after a read. -/
theorem At.awaits {r : EventLoop} {s : Stage} {k : Stream} {e : Event} {evts : List Event}
    (h : At json client r s) (hphase : r.phase = phaseOf k (e :: evts))
    (hwaiting : s.waiting = true) : awaits client k r.conn.state = true := by
  have hloop := h.loop hphase
  have hvalid := h.valid
  rw [h.state]
  cases k with
  | plain => cases s <;> first | rfl | cases hwaiting
  | tls =>
    obtain ⟨hreplied, htls⟩ := h.over_tls hloop
    cases s with
    | identified => cases hreplied
    | switched => rfl
    | authorized => rfl
    | subscribed => simpa [EventLoop.awaits, Stage.state, Stage.Valid, htls] using hvalid
    | _ => cases hwaiting

/-- Commands from the channel do not concern the handshake. -/
theorem quiet_of_flushed {k : Stream} {cmds : List Cmd} {c c' : Conn}
    (h : Conn.Flushed k cmds c c') : Since Quiet c.log c'.log := by
  refine h.log.mono ?_
  rintro o (⟨cmd, -, rfl⟩ | ⟨offered, res, rfl⟩)
  · exact ⟨rfl, rfl⟩
  · exact ⟨rfl, rfl⟩

/-- The answer to a heartbeat does not concern the handshake. -/
theorem quiet_of_beat {r r' : EventLoop} {k : Stream} {io : Io} (h : Beat k io r r') :
    Since Quiet r.conn.log r'.conn.log := by
  refine h.log.mono ?_
  rintro o (rfl | ⟨offered, res, rfl⟩)
  · exact ⟨rfl, rfl⟩
  · exact ⟨rfl, rfl⟩

/-- A readable connection leads to the same stage or to a later one. -/
theorem at_readable {r : EventLoop} {s : Stage} {k : Stream} {e : Event} {evts : List Event}
    {io : Io} {x : Except Leave EventLoop} (h : At json client r s)
    (hphase : r.phase = phaseOf k (e :: evts)) (hmio : Ready.readable = r.interest)
    (hx : ReadOutcome json client k io r x) (halive : ¬ Crashed (after (phaseOf k) evts x)) :
    ∃ s', stateOrder.idxOf s.state ≤ stateOrder.idxOf s'.state ∧
      At json client (after (phaseOf k) evts x) s' := by
  have hloop := h.loop hphase
  have hstage := h.stage_of_readable hmio
  cases hx with
  | panicked _ _ _ => exact absurd (.inl ⟨_, rfl⟩) halive
  | refused _ _ _ hhalt _ => exact absurd (crashed_of_refused hhalt) halive
  | noResponse _ _ _ _ => exact absurd (.inl ⟨_, rfl⟩) halive
  | eof _ =>
    refine ⟨s, Nat.le_refl _, h.quiet rfl rfl rfl rfl ?_ (home_phaseOf hloop s []) (.refl _ _)⟩
    intro
    change (if r.conn.needResponse then Ready.readable else r.interest) = r.interest
    rw [← hmio, ite_self]
  | wouldBlock _ =>
    exact ⟨s, Nat.le_refl _, h.quiet rfl rfl rfl rfl (fun _ => rfl) (home_phaseOf hloop s [])
      (.snoc ⟨rfl, rfl⟩)⟩
  | @started bs fs c _ hfed hstate =>
    have hs : s = .started := Stage.eq_started (h.state.symm.trans hstate)
    refine ⟨s, Nat.le_refl _, h.quiet hfed.state ?_ rfl rfl (fun hne => absurd hs hne)
      (home_phaseOf hloop s evts) ⟨[.read k bs], hfed.log, quiet_read k bs⟩⟩
    change c.needResponse = r.conn.needResponse
    rw [hfed.same]
  | unasked _ hfed hawaits hstarted hsubscribe =>
    rcases hstage with rfl | hwaiting
    · exact absurd h.state hstarted
    · rw [h.awaits hphase hwaiting] at hawaits
      cases hawaits
  | producer _ hfed hk hstate hproducer =>
    rcases hstage with rfl | hwaiting
    · rw [h.state] at hstate
      cases hstate
    · have hawaits := h.awaits hphase hwaiting
      rw [hstate, hk] at hawaits
      simp [EventLoop.awaits, hproducer] at hawaits
  | @tlsSwitch bs fs c rs resp cfg _ hfed hk hstate hrs hjson htls =>
    rw [h.state] at hstate
    obtain rfl : s = .identified := by
      rcases hstage with rfl | hwaiting
      · cases hstate
      · exact Stage.eq_identified hwaiting hstate
    have hneed : c.needResponse = r.conn.needResponse := by rw [hfed.same]
    obtain ⟨free, hpaced, -⟩ := h.paced
    have hstage : Stage.identified ≠ .started := by simp
    refine ⟨.switched, by decide, rfl, ?_, fun _ => h.interest hstage, ?_, ?_, htls, ?_,
      ⟨true, ?_, fun _ _ => rfl⟩, fun hnegotiated => absurd hnegotiated (by decide)⟩
    · exact hneed.trans h.needResponse
    · simp [after, Stage.replied, htls]
    · rw [hk]
      exact .inr ⟨rfl, rfl⟩
    · have hreply := h.reply
      rw [Stage.replied, if_neg (by decide)] at hreply
      simp only [Stage.replied, if_true, after, NsqClient.reply, hfed.log]
      rw [List.findSome?_append, findSome_of_quiet (quiet_read k bs), hreply]
      exact hjson
    · have hresponse : Paced _ _ true := @Paced.response _ _ _ resp
        (hpaced.quiets (quiet_read k bs))
      have hpaced' : Paced _ _ true := .quiet hresponse (show Quiet .tlsEnabled from ⟨rfl, rfl⟩)
      simpa [after, hfed.log, Stage.written] using hpaced'
  | answered _ hfed hrs hnext =>
    rw [h.state] at hnext ⊢
    rcases hstage with rfl | hwaiting
    · cases hnext
    · cases s with
      | identified =>
        cases hnext with
        | identify hjson hplain hchoice =>
          obtain ⟨s', rfl, hwait, hrep, hvalid, hwritten, hle⟩ := stage_of_authChoice hchoice
          exact ⟨s', Nat.le_trans (by decide) hle,
            h.answer s' hphase hfed.log (.inr ⟨rfl, hjson, hplain⟩) hwait hrep hvalid hwritten⟩
      | switched =>
        cases hnext with
        | tls hchoice =>
          obtain ⟨s', rfl, hwait, hrep, hvalid, hwritten, hle⟩ := stage_of_authChoice hchoice
          exact ⟨s', hle,
            h.answer s' hphase hfed.log (.inl ⟨rfl, rfl⟩) hwait hrep hvalid hwritten⟩
      | authorized =>
        cases hnext
        have hauth : r.nsqdConfig.authRequired = true := h.valid
        refine ⟨.subscribing, by decide,
          h.answer .subscribing hphase hfed.log (.inl ⟨rfl, rfl⟩) rfl rfl trivial ?_⟩
        simp [Stage.written, greeting, hauth]
      | subscribed =>
        cases hnext
        exact ⟨.ready, by decide,
          h.answer .ready hphase hfed.log (.inl ⟨rfl, rfl⟩) rfl rfl h.valid rfl⟩
      | _ => cases hwaiting

/-- If the subscription is next and written, the client does not only publish over TLS. -/
theorem At.subscribes {r : EventLoop} {s : Stage} {k : Stream} {e : Event} {evts : List Event}
    (h : At json client r s) (hphase : r.phase = phaseOf k (e :: evts))
    (hreplied : s.replied = true) (hproducer : k = .tls → client.isProducer = false) :
    (r.nsqdConfig.tlsV1 && client.isProducer) = false := by
  cases htls : r.nsqdConfig.tlsV1 with
  | false => rfl
  | true => rw [hproducer (h.stream hphase hreplied htls), Bool.and_false]

/-- A connection that is not readable leads to the same stage or to a later one. -/
theorem at_writable {r : EventLoop} {s : Stage} {k : Stream} {e : Event} {evts : List Event}
    {io : Io} {x : Except Leave EventLoop} (h : At json client r s)
    (hphase : r.phase = phaseOf k (e :: evts)) (hmio : Ready.writable = r.interest)
    (hx : WriteOutcome json client k io r x) (halive : ¬ Crashed (after (phaseOf k) evts x)) :
    ∃ s', stateOrder.idxOf s.state ≤ stateOrder.idxOf s'.state ∧
      At json client (after (phaseOf k) evts x) s' := by
  have hloop := h.loop hphase
  have hstage := h.stage_of_writable hmio
  cases hx with
  | command hsends _ =>
    rw [h.state] at hsends
    rcases hstage with rfl | hwaiting
    · cases hsends
    · cases s with
      | connected =>
        cases hsends
        exact ⟨.identified, by decide, h.command .identified hphase nofun rfl rfl rfl trivial
          (.inr rfl) (by simp [Stage.written]) rfl⟩
      | authorizing =>
        cases hsends
        exact ⟨.authorized, by decide, h.command .authorized hphase nofun rfl rfl rfl h.valid.1
          (.inr rfl) (by simp [Stage.written]) rfl⟩
      | subscribing =>
        cases hsends with
        | subscribe hproducer =>
          exact ⟨.subscribed, by decide, h.command .subscribed hphase nofun rfl rfl rfl
            (h.subscribes hphase rfl hproducer) (.inr rfl)
            (by simp [Stage.written, greeting]) rfl⟩
      | ready =>
        cases hsends
        refine ⟨.started, by decide, h.command .started hphase nofun rfl rfl rfl trivial
          (.inl rfl) (by simp [Stage.written]) ?_⟩
        have hvalid : (r.nsqdConfig.tlsV1 && client.isProducer) = false := h.valid
        simp [Stage.written, script, hvalid]
      | started => cases hsends
      | _ => cases hwaiting
  | mute hmute =>
    rw [h.state] at hmute
    rcases hstage with rfl | hwaiting
    · cases hmute
    · cases s with
      | connected =>
        cases hmute
        cases (h.over_tls hloop).1
      | authorizing =>
        cases hmute with
        | auth hsecret =>
          have hvalid := h.valid.2
          rw [hsecret] at hvalid
          cases hvalid
      | subscribing =>
        cases hmute with
        | producer hproducer =>
          obtain ⟨free, hpaced, -⟩ := h.paced
          have hscript : Stage.written client r.nsqdConfig .started = greeting r.nsqdConfig := by
            simp [Stage.written, script, hproducer, (h.over_tls hloop).2]
          refine ⟨.started, by decide, rfl, h.needResponse, fun hne => absurd rfl hne, h.tls,
            home_phaseOf hloop .started evts, trivial, ?_,
            ⟨free, ?_, fun hne => absurd rfl hne⟩, ?_⟩
          · have hreply := h.reply
            simp only [Stage.replied, if_true, after, NsqClient.reply] at hreply ⊢
            rw [findSome_of_quiet (quiet_wrote _ _ _)]
            exact hreply
          · change Paced _ (Stage.written client r.nsqdConfig .started) free
            rw [hscript]
            exact .quiet hpaced ⟨rfl, rfl⟩
          · intro _ htls
            obtain ⟨bs, hmem⟩ := h.negotiated rfl htls
            exact ⟨bs, List.mem_append_left _ hmem⟩
      | ready => cases hmute
      | started => cases hmute
      | _ => cases hwaiting
  | @started r₁ c hstate hbeat hflushed =>
    have hs : s = .started := Stage.eq_started (h.state.symm.trans hstate)
    have hsame := hbeat.same
    have hquiet := quiet_of_flushed hflushed
    have hlog : Since Quiet r.conn.log c.log := (quiet_of_beat hbeat).trans hquiet
    refine ⟨s, Nat.le_refl _, h.quiet ?_ ?_ ?_ ?_ (fun hne => absurd hs hne) ?_ hlog⟩
    · simp only [after]
      rw [hflushed.conn, hsame]
    · simp only [after]
      rw [hflushed.conn, hsame]
    · simp only [after]
      rw [hsame]
    · simp only [after]
      rw [hsame]
    · exact home_phaseOf hloop s evts
  | startedPanic _ _ _ _ _ => exact absurd (.inl ⟨_, rfl⟩) halive

/-- The TLS handshake leads to the TLS loop, or to the end of `run`. -/
theorem at_tls {r : EventLoop} {s : Stage} {answer : TlsAnswer} (h : At json client r s)
    (hphase : r.phase = .plain [] ∧ r.tls = 1 ∨ r.phase = .handshaking)
    (halive : ¬ Crashed (onTls answer r)) : At json client (onTls answer r) s := by
  have hs : s = .switched := by
    have hhome := h.home
    rcases hphase with ⟨hphase, htls⟩ | hphase
    · rw [hphase, htls] at hhome
      rcases hhome with hhome | ⟨-, hs⟩
      · exact absurd hhome (by decide)
      · exact hs
    · rw [hphase] at hhome
      exact hhome
  subst hs
  have htls : r.tls = 1 := by
    have hvalid : r.nsqdConfig.tlsV1 = true := h.valid
    rw [h.tls, hvalid]
    rfl
  cases answer with
  | noConnector => exact absurd (.inl ⟨_, rfl⟩) halive
  | connected =>
    exact h.quiet rfl rfl rfl rfl (fun hne => (h.interest hne).symm) htls (.refl _ _)
  | failure => exact h.quiet rfl rfl rfl rfl (fun _ => rfl) trivial (.refl _ _)
  | wouldBlock => exact h.quiet rfl rfl rfl rfl (fun _ => rfl) rfl (.refl _ _)

/-- While the connection switches to TLS the handshake is not over. -/
theorem At.not_started_of_switch {r : EventLoop} {s : Stage} (h : At json client r s)
    (hphase : r.phase = .plain [] ∧ r.tls = 1 ∨ r.phase = .handshaking) :
    r.conn.state ≠ .started := by
  have hhome := h.home
  rcases hphase with ⟨hphase, htls⟩ | hphase
  · rw [hphase] at hhome
    rcases hhome with hzero | ⟨-, rfl⟩
    · rw [htls] at hzero
      cases hzero
    · rw [h.state]
      exact nofun
  · rw [hphase] at hhome
    obtain rfl : s = .switched := hhome
    rw [h.state]
    exact nofun

/-- A step leads to the same stage or to a later one.

**Proof sketch.** What another thread does, a return of `poll`, a command from the channel and
a request to close do not concern the handshake.  A readable connection is in a stage in which a
response is due, and a writable one in a stage in which a command is next, since `mio` keeps to
the interest registered last. -/
theorem at_step {r r' : EventLoop} {s : Stage} {l : Label} (h : At json client r s)
    (hmio : Mio r l) (hstep : step json client r l = some r') (halive : ¬ Crashed r') :
    ∃ s', stateOrder.idxOf s.state ≤ stateOrder.idxOf s'.state ∧ At json client r' s' := by
  cases step_outcome hstep with
  | send =>
    exact ⟨s, Nat.le_refl _, h.quiet rfl rfl rfl rfl (fun _ => rfl) h.home (.refl _ _)⟩
  | close =>
    exact ⟨s, Nat.le_refl _, h.quiet rfl rfl rfl rfl (fun _ => rfl) h.home (.refl _ _)⟩
  | pollPlain hphase htls =>
    have hzero : r.tls = 0 := by
      have hhome := h.home
      rw [hphase] at hhome
      rcases hhome with hhome | ⟨-, rfl⟩
      · exact hhome
      · have hvalid : r.nsqdConfig.tlsV1 = true := h.valid
        rw [h.tls, hvalid] at htls
        exact absurd rfl htls
    exact ⟨s, Nat.le_refl _,
      h.quiet rfl rfl rfl rfl (fun _ => rfl) (.inl hzero) (.refl _ _)⟩
  | pollTls hphase =>
    have hhome := h.home
    rw [hphase] at hhome
    exact ⟨s, Nat.le_refl _, h.quiet rfl rfl rfl rfl (fun _ => rfl) hhome (.refl _ _)⟩
  | pollFailed => exact absurd (.inl ⟨_, rfl⟩) halive
  | tls hphase => exact ⟨s, Nat.le_refl _, at_tls h hphase halive⟩
  | event hphase hevent =>
    have hloop := h.loop hphase
    have hready := hmio _ (nextEvent_of_phase hphase)
    cases hevent with
    | close _ =>
      exact ⟨s, Nat.le_refl _, h.quiet rfl rfl rfl rfl (fun _ => rfl) trivial
        (.snoc ⟨rfl, rfl⟩)⟩
    | noClose _ =>
      exact ⟨s, Nat.le_refl _, h.quiet rfl rfl rfl rfl (fun _ => rfl)
        (home_phaseOf hloop s _) (.refl _ _)⟩
    | @messages _ c hflushed =>
      have hquiet := quiet_of_flushed hflushed
      refine ⟨s, Nat.le_refl _, h.quiet ?_ ?_ rfl rfl (fun _ => rfl)
        (home_phaseOf hloop s _) hquiet⟩
      · simp only [after]
        rw [hflushed.conn]
      · simp only [after]
        rw [hflushed.conn]
    | messagesPanic _ _ _ _ => exact absurd (.inl ⟨_, rfl⟩) halive
    | readable hread => exact at_readable h hphase (hready rfl) hread halive
    | writable hwrite => exact at_writable h hphase (hready rfl) hwrite halive

/-- A run leads to the same stage or to a later one. -/
theorem at_run {r r' : EventLoop} {s : Stage} {ls : List Label} (h : At json client r s)
    (hrun : Machine.Run (step json client) Mio r ls r') (halive : ¬ Crashed r') :
    ∃ s', stateOrder.idxOf s.state ≤ stateOrder.idxOf s'.state ∧ At json client r' s' := by
  induction hrun with
  | nil => exact ⟨s, Nat.le_refl _, h⟩
  | snoc _ hmio hstep ih =>
    obtain ⟨s₁, hle₁, hat₁⟩ := ih fun hcrashed => halive (crashed_of_step hcrashed hstep)
    obtain ⟨s₂, hle₂, hat₂⟩ := at_step hat₁ hmio hstep halive
    exact ⟨s₂, Nat.le_trans hle₁ hle₂, hat₂⟩

/-- As long as `run` has not panicked or exited: the state only moves forward; the handshake
commands written are a beginning of the script for the reply to `IDENTIFY`, each at most once;
none is written while `need_response` is set; and `AUTH`, `SUB` and `RDY` are written only after
`get_response` returned a text since the command before. -/
theorem handshake_lockstep {cmds : List Cmd} {alloc : Alloc} {clock : ℕ} {ls ls' : List Label}
    {r r' : EventLoop}
    (hrun : Machine.Run (step json client) Mio (start client cmds alloc clock) ls r)
    (hrun' : Machine.Run (step json client) Mio r ls' r') (halive : ¬ Crashed r') :
    (stateOrder.idxOf r.conn.state ≤ stateOrder.idxOf r'.conn.state ∧
      r'.conn.state ∈ stateOrder) ∧
    (handshakes r'.conn.log <+: script client (reply json r'.conn.log) ∧
      (handshakes r'.conn.log).Nodup) ∧
    (∀ h need, .handshake h need ∈ r'.conn.log → need = false) ∧
    Acknowledged r'.conn.log := by
  have halive₁ : ¬ Crashed r := fun hcrashed => halive
    (hrun'.invariant Crashed hcrashed fun _ _ _ h _ hstep => crashed_of_step h hstep)
  obtain ⟨s, -, hat⟩ := at_run (at_start json client cmds alloc clock) hrun halive₁
  obtain ⟨s', hle, hat'⟩ := at_run hat hrun' halive
  obtain ⟨free, hpaced, -⟩ := hat'.paced
  have hreply : reply json r'.conn.log = if s'.replied then some r'.nsqdConfig else none := by
    have hreply := hat'.reply
    split_ifs at hreply ⊢ with hreplied
    · exact hreply
    · rw [NsqClient.reply, hreply]
      rfl
  have hscript : handshakes r'.conn.log <+: script client (reply json r'.conn.log) := by
    rw [hpaced.handshakes_eq, hreply]
    exact Stage.written_prefix hat'.valid
  refine ⟨⟨?_, ?_⟩, ⟨hscript, ?_⟩, fun _ _ hmem => hpaced.unneeded hmem, hpaced.acknowledged⟩
  · rw [hat.state, hat'.state]
    exact hle
  · rw [hat'.state]
    exact s'.state_mem
  · exact (script_nodup client _).sublist hscript.sublist

set_option maxRecDepth 4000 in
/-- A reply that grants TLS and requires authorization, and a client with a secret, up to `AUTH`
over TLS. -/
theorem handshake_lockstep_auth :
    ∃ r : EventLoop, r.conn.state = .auth ∧ handshakes r.conn.log = [.identify, .auth] ∧
      (handshakes r.conn.log).Nodup ∧ Acknowledged r.conn.log := by
  have hexec : Machine.exec (step serde ⟨"t", "c", some "s", 1, .default none⟩)
      Mio (start ⟨"t", "c", some "s", 1, .default none⟩ [] .exact 0)
      (writing ++ replying (granted true true) ++ [.tls .connected] ++ replying "OK" ++ writing) =
      some _ := rfl
  have hlockstep := handshake_lockstep .nil (Machine.Run.of_exec hexec)
    (by rintro (⟨p, hp⟩ | hp) <;> cases hp)
  exact ⟨_, rfl, rfl, hlockstep.2.1.2, hlockstep.2.2.2⟩

end EventLoop

end NsqClient
