import NsqClient.Confinement
import NsqClient.Delivery

set_option relaxedAutoImplicit false
set_option autoImplicit false

/-!
# The negotiation of TLS

A configuration only asks for TLS.  Whether `AUTH`, `SUB` and the commands of an established
connection go to the plain socket is decided by the reply to `IDENTIFY`: they do if it does not
grant TLS, and only then.

## Main definitions

* `NsqClient.Obs.Private` — what TLS is there to protect.
* `NsqClient.Negotiated` — nothing private on the plain socket but after a reply that denies TLS.

## Main results

* `NsqClient.EventLoop.plain_after_denial` — every run is negotiated, with every configuration.
* `NsqClient.EventLoop.plain_though_asked` — to ask for TLS is not enough.
-/

namespace NsqClient

/-- `AUTH`, `SUB`, and the commands from the channel once the handshake is over. -/
def Obs.Private : Obs → Prop
  | handshake h _ => h = .auth ∨ h = .subscribe
  | user st _ => st = .started
  | _ => False

/-- The reply to `IDENTIFY` does not grant TLS. -/
def DeniesTls (json : Json) (log : List Obs) : Prop :=
  ∃ cfg, reply json log = some cfg ∧ cfg.tlsV1 = false

/-- Nothing private is written to the plain socket but after a reply that denies TLS. -/
def Negotiated (json : Json) (log : List Obs) : Prop :=
  ∀ pre offered res post, log = pre ++ .wrote .plain offered res :: post →
    (∃ o ∈ unwritten pre, o.Private) → DeniesTls json pre

section Logs

variable {json : Json} {log tail : List Obs}

/-- A reply that denies TLS stays the reply. -/
theorem DeniesTls.append (h : DeniesTls json log) (tail : List Obs) :
    DeniesTls json (log ++ tail) := by
  obtain ⟨cfg, hreply, hcfg⟩ := h
  refine ⟨cfg, ?_, hcfg⟩
  have hsome : (log.findSome? responseOf).isSome = true := by
    rw [reply] at hreply
    cases hresp : log.findSome? responseOf with
    | none =>
      rw [hresp] at hreply
      cases hreply
    | some resp => rfl
  rw [reply_append tail hsome, hreply]

/-- What was not written yet was not before, or is new. -/
theorem mem_unwritten_append {o : Obs} (h : o ∈ unwritten (log ++ tail)) :
    o ∈ unwritten log ∨ o ∈ tail := by
  induction tail using List.reverseRecOn with
  | nil =>
    rw [List.append_nil] at h
    exact .inl h
  | append_singleton tail o' ih =>
    rw [← List.append_assoc, unwritten_snoc] at h
    split_ifs at h
    · cases h
    · rcases List.mem_append.mp h with h | h
      · exact (ih h).imp_right (List.mem_append_left _)
      · exact .inr (List.mem_append_right _ h)

/-- Entries with nothing private among them, entries after a reply that denies TLS, and entries
that do not write to the plain socket. -/
theorem Negotiated.append (h : Negotiated json log)
    (hnew : (∀ o, o ∈ unwritten log ∨ o ∈ tail → ¬ o.Private) ∨ DeniesTls json log ∨
      ∀ o ∈ tail, WritesTo .tls o) : Negotiated json (log ++ tail) := by
  rintro pre offered res post hsplit ⟨o, ho, hprivate⟩
  rcases split_append hsplit with ⟨post', hlog⟩ | ⟨mid, rfl, htail⟩
  · exact h pre offered res post' hlog ⟨o, ho, hprivate⟩
  · rcases hnew with hnone | hdenied | htls
    · refine absurd hprivate (hnone o ?_)
      rw [htail]
      exact (mem_unwritten_append ho).imp_right (List.mem_append_left _)
    · exact hdenied.append mid
    · have hmem : Obs.wrote .plain offered res ∈ tail := by
        rw [htail]
        exact List.mem_append_right mid List.mem_cons_self
      cases htls _ hmem .plain offered res rfl

/-- With a reply that grants TLS nothing private is written to the plain socket. -/
theorem Negotiated.granted (h : Negotiated json log) (hasks : AsksTls json log) :
    ∀ pre offered res post, log = pre ++ .wrote .plain offered res :: post →
      ∀ o ∈ unwritten pre, ¬ o.Private := by
  rintro pre offered res post rfl o ho hprivate
  obtain ⟨cfg, hreply, hdenied⟩ := (h pre offered res post rfl ⟨o, ho, hprivate⟩).append
    (.wrote .plain offered res :: post)
  obtain ⟨cfg', hreply', htls⟩ := hasks
  rw [hreply] at hreply'
  cases hreply'
  rw [hdenied] at htls
  cases htls

end Logs

namespace EventLoop

variable {json : Json} {client : Client}

/-- There is no reply to `IDENTIFY` yet, or it denies TLS. -/
def Denied (json : Json) (r : EventLoop) : Prop :=
  (r.conn.state = .identify ∧ r.conn.log.findSome? responseOf = none) ∨ DeniesTls json r.conn.log

/-- What is neither a response nor a change of the state. -/
theorem Denied.keep {r r' : EventLoop} (h : Denied json r)
    (hstate : r.conn.state = .identify → r'.conn.state = .identify)
    (hlog : Since (fun o => responseOf o = none) r.conn.log r'.conn.log) : Denied json r' := by
  obtain ⟨tail, htail, hnone⟩ := hlog
  rcases h with ⟨hidentify, hresp⟩ | hdenied
  · refine .inl ⟨hstate hidentify, ?_⟩
    rw [htail, List.findSome?_append, hresp, Option.none_or]
    exact List.findSome?_eq_none_iff.mpr hnone
  · rw [Denied, htail]
    exact .inr (hdenied.append tail)

/-- An event of the plain loop: unless it ends `run` or switches to TLS, the reply is still open or
denies TLS. -/
theorem denied_event {r : EventLoop} {io : Io} {e : Event} {x : Except Leave EventLoop}
    (h : Denied json r) (hx : EventOutcome json client .plain io r e x) (evts : List Event) :
    (∃ halt, (after .plain evts x).phase = .done halt) ∨
      ((after .plain evts x).tls = 1 ∧ (after .plain evts x).phase = .plain []) ∨
      Denied json (after .plain evts x) := by
  cases hx with
  | close _ => exact .inl ⟨_, rfl⟩
  | noClose _ => exact .inr (.inr (h.keep id (.refl _ _)))
  | messages hflushed =>
    have hflush := (flushed_writes hflushed).mono fun _ h => h.2
    refine .inr (.inr (h.keep (fun hstate => ?_) hflush))
    simp only [after]
    rw [hflushed.conn]
    exact hstate
  | messagesPanic _ _ _ _ => exact .inl ⟨_, rfl⟩
  | readable hread =>
    cases hread with
    | panicked _ _ _ => exact .inl ⟨_, rfl⟩
    | refused _ _ _ _ _ => exact .inl ⟨_, rfl⟩
    | noResponse _ _ _ _ => exact .inl ⟨_, rfl⟩
    | eof _ => exact .inr (.inr (h.keep id (.refl _ _)))
    | wouldBlock _ => exact .inr (.inr (h.keep id (.snoc rfl)))
    | started _ hfed _ =>
      exact .inr (.inr (h.keep (fun hstate => hfed.state.trans hstate)
        ⟨_, hfed.log, by simp [responseOf]⟩))
    | unasked _ hfed _ _ _ =>
      exact .inr (.inr (h.keep (fun hstate => hfed.state.trans hstate)
        ⟨_, hfed.log, by simp [responseOf]⟩))
    | producer _ _ hk _ _ => cases hk
    | tlsSwitch _ _ _ _ _ _ _ => exact .inr (.inl ⟨rfl, rfl⟩)
    | @answered bs _ c _ resp _ _ _ hfed _ hnext =>
      have hlog : c.log ++ [.response (.response resp)] =
          r.conn.log ++ [.read .plain bs, .response (.response resp)] := by
        rw [hfed.log, List.append_assoc]
        rfl
      refine .inr (.inr (.inr ?_))
      simp only [after]
      rw [hlog]
      rcases h with ⟨hidentify, hnone⟩ | hdenied
      · rw [hidentify] at hnext
        cases hnext with
        | identify hjson hplain _ =>
          refine ⟨_, ?_, hplain⟩
          rw [reply, List.findSome?_append, hnone, Option.none_or]
          exact hjson
      · exact hdenied.append _
  | writable hwrite =>
    have hnone := (write_writes hwrite .plain evts).mono fun _ h => h.2
    cases hwrite with
    | command hsends _ =>
      refine .inr (.inr (h.keep (fun hstate => ?_) hnone))
      rw [hstate] at hsends
      cases hsends
      rfl
    | mute hmute =>
      refine .inr (.inr (h.keep (fun hstate => ?_) hnone))
      rw [hstate] at hmute
      cases hmute
    | started hstate _ _ =>
      refine .inr (.inr (h.keep (fun hidentify => ?_) hnone))
      rw [hidentify] at hstate
      cases hstate
    | startedPanic _ _ _ _ _ => exact .inl ⟨_, rfl⟩

/-- In the state `Identify` nothing private is handed to the encoder. -/
theorem not_private_of_identify {r : EventLoop} {k : Stream} {io : Io} {e : Event}
    {x : Except Leave EventLoop} (hstate : r.conn.state = .identify)
    (hx : EventOutcome json client k io r e x) (next : List Event → Phase) (evts : List Event) :
    Since (fun o => ¬ o.Private) r.conn.log (after next evts x).conn.log := by
  have hflush : ∀ {cmds : List Cmd} {c : Conn}, Conn.Flushed k cmds { r.conn with r := [] } c →
      Since (fun o => ¬ o.Private) r.conn.log c.log := by
    intro cmds c hflushed
    refine hflushed.log.mono ?_
    rintro o (⟨cmd, -, rfl⟩ | ⟨offered, res, rfl⟩)
    · simp [Obs.Private, hstate]
    · exact id
  cases hx with
  | close _ => exact .snoc id
  | noClose _ => exact .refl _ _
  | messages hflushed => exact hflush hflushed
  | messagesPanic _ _ _ hflushed => exact hflush hflushed
  | readable hread =>
    refine (read_log hread next evts).mono ?_
    rintro o (⟨bs, rfl⟩ | ⟨resp, rfl⟩ | rfl | rfl) <;> exact id
  | writable hwrite =>
    cases hwrite with
    | command hsends _ =>
      rw [hstate] at hsends
      cases hsends
      exact .append (by simp [Obs.Private])
    | mute _ => exact .snoc id
    | started hstarted _ _ =>
      rw [hstate] at hstarted
      cases hstarted
    | startedPanic hstarted _ _ _ _ =>
      rw [hstate] at hstarted
      cases hstarted

/-- In the plain loop the reply is open or denies TLS, until the switch; and the log is
negotiated. -/
structure Negotiating (json : Json) (r : EventLoop) : Prop where
  plain : ∀ evts, r.phase = .plain evts → Denied json r ∨ (r.tls = 1 ∧ evts = [])
  log : Negotiated json r.conn.log

/-- Every step keeps that, if nothing private is left unwritten before it. -/
theorem negotiating_step {r r' : EventLoop} {l : Label} (h : Negotiating json r)
    (hunwritten : ¬ Crashed r → ∀ o ∈ unwritten r.conn.log, ¬ o.Private)
    (hstep : step json client r l = some r') : Negotiating json r' := by
  cases step_outcome hstep with
  | send => exact ⟨h.plain, h.log⟩
  | close => exact ⟨h.plain, h.log⟩
  | pollPlain hphase htls =>
    refine ⟨fun evts _ => ?_, h.log⟩
    exact .inl ((h.plain [] hphase).resolve_right fun hone => htls hone.1)
  | pollTls _ => exact ⟨nofun, h.log⟩
  | pollFailed => exact ⟨nofun, h.log⟩
  | @tls answer _ => cases answer <;> exact ⟨nofun, h.log⟩
  | @event k e evts io x hphase hevent =>
    have hwrites := onEvent_writes hevent (phaseOf k) evts
    have hnone := hunwritten (not_crashed_of_phase hphase)
    cases k with
    | plain =>
      have hdenied : Denied json r := (h.plain _ hphase).resolve_right nofun
      refine ⟨fun evts' hevts' => ?_, ?_⟩
      · have hevts' : (after .plain evts x).phase = .plain evts' := hevts'
        rcases denied_event hdenied hevent evts with ⟨halt, hdone⟩ | ⟨htls, hnil⟩ | hdenied
        · rw [hdone] at hevts'
          cases hevts'
        · rw [hnil] at hevts'
          cases hevts'
          exact .inr ⟨htls, rfl⟩
        · exact .inl hdenied
      · rcases hdenied with ⟨hidentify, -⟩ | hdenied
        · obtain ⟨tail, hlog, htail⟩ := not_private_of_identify hidentify hevent .plain evts
          have hnew : Negotiated json (r.conn.log ++ tail) :=
            h.log.append (.inl fun o ho => ho.elim (hnone o) (htail o))
          exact hlog ▸ hnew
        · obtain ⟨tail, hlog, -⟩ := hwrites
          rw [hlog]
          exact h.log.append (.inr (.inl hdenied))
    | tls =>
      refine ⟨fun evts' hevts' => ?_, ?_⟩
      · rcases x with (r' | ⟨halt, r'⟩) | r' <;> cases hevts'
      · obtain ⟨tail, hlog, htail⟩ := hwrites
        rw [hlog]
        exact h.log.append (.inr (.inr htail))

/-- Between two steps nothing private is left unwritten. -/
theorem Delivered.unwritten {sent : List Cmd} {r : EventLoop} (h : Delivered json client sent r) :
    ∀ o ∈ unwritten r.conn.log, ¬ o.Private := by
  intro o ho hprivate
  have hnone := List.filterMap_eq_nil_iff.mp h.carries.pending o ho
  cases o with
  | handshake h need => cases hnone
  | user st cmd => cases hnone
  | _ => exact hprivate

/-- Whatever the configuration asks for and whatever happens in the run: a write to the plain socket
carries `AUTH`, `SUB` or a command from the channel of an established connection only if the reply
to `IDENTIFY` before it does not grant TLS.  What a write carries is what was handed to the encoder
since the write before. -/
theorem plain_after_denial {cmds : List Cmd} {alloc : Alloc} {clock : ℕ} {ls : List Label}
    {r : EventLoop}
    (hrun : Machine.Run (step json client) Machine.anything (start client cmds alloc clock) ls r) :
    Negotiated json r.conn.log ∧ (¬ Crashed r → Framed json client r.conn.log) := by
  refine ⟨?_, fun hrunning => (delivered_run hrun hrunning).carries.framed⟩
  have h : Negotiating json r := by
    induction hrun with
    | nil =>
      refine ⟨fun evts _ => .inl (.inl ⟨rfl, rfl⟩), ?_⟩
      intro pre offered res post hsplit
      exact absurd hsplit.symm (by simp [start, Conn.magic, Conn.new])
    | snoc hrun _ hstep ih =>
      exact negotiating_step ih (fun hrunning => (delivered_run hrun hrunning).unwritten) hstep
  exact h.log

set_option maxRecDepth 4000 in
/-- A reply that grants TLS: nothing private is written to the plain socket. -/
theorem plain_after_denial_granted :
    ∃ r : EventLoop, .wrote .tls (Utf8.asBytes "SUB t c\n") (.ok 1000) ∈ r.conn.log ∧
      ∀ pre offered res post, r.conn.log = pre ++ .wrote .plain offered res :: post →
        ∀ o ∈ unwritten pre, ¬ o.Private := by
  have hexec : Machine.exec (step serde ⟨"t", "c", none, 1, (Config.default none).tls⟩)
      Machine.anything (start ⟨"t", "c", none, 1, (Config.default none).tls⟩ [] .exact 0)
      (writing ++ replying (granted true false) ++ [.tls .connected] ++ replying "OK" ++ writing) =
      some _ := rfl
  obtain ⟨hnegotiated, -⟩ := plain_after_denial (Machine.Run.of_exec hexec)
  exact ⟨_, by decide, hnegotiated.granted ⟨_, rfl, rfl⟩⟩

set_option maxRecDepth 4000 in
/-- A client that asks for TLS, and a reply that does not grant it: `AUTH` with the secret, `SUB`
and a command from the channel go to the plain socket. -/
theorem plain_though_asked :
    ∃ (json : Json) (client : Client) (ls : List Label) (r : EventLoop),
      client.config = (Config.default none).tls ∧ client.secret = some "s" ∧
      Machine.Run (step json client) Machine.anything (start client [] .exact 0) ls r ∧
      reply json r.conn.log = some ⟨60000, false, true⟩ ∧
      .wrote .plain (Utf8.asBytes "AUTH\n" ++ [0, 0, 0, 1, 115]) (.ok 1000) ∈ r.conn.log ∧
      .wrote .plain (Utf8.asBytes "SUB t c\n") (.ok 1000) ∈ r.conn.log ∧
      .wrote .plain (Utf8.asBytes "FIN a\n") (.ok 1000) ∈ r.conn.log := by
  have hexec : Machine.exec (step serde ⟨"t", "c", some "s", 1, (Config.default none).tls⟩)
      Machine.anything (start ⟨"t", "c", some "s", 1, (Config.default none).tls⟩ [] .exact 0)
      (writing ++ replying (granted false true) ++ writing ++ replying "OK" ++ writing ++
        replying "OK" ++ writing ++
        [.send (NsqCmd.fin "a").asCmd, .poll [⟨.client, .writable⟩] 0,
          .event ⟨.ok [], fun _ => .ok 1000, true⟩]) = some _ := rfl
  exact ⟨_, _, _, _, rfl, rfl, Machine.Run.of_exec hexec, by decide, by decide, by decide,
    by decide⟩

end EventLoop

end NsqClient
