import NsqClient.Steps

set_option relaxedAutoImplicit false
set_option autoImplicit false

/-!
# Confinement to TLS

Once the server's reply to `IDENTIFY` asks for TLS, nothing is written to the plain socket any
more.  The reply is processed by the plain loop, which at that point drops the rest of its batch
and enters the TLS handshake before it polls again.

## Main definitions

* `NsqClient.afterReply` — the part of a log that follows the reply.
* `NsqClient.Confined`, `NsqClient.Silent` — after the reply, writes go to the TLS stream, or
  there are none.
* `NsqClient.EventLoop.Walled` — the invariant: which of the two holds, by the phase.

## Main results

* `NsqClient.EventLoop.tls_confinement` — the confinement, in every run.
-/

namespace NsqClient

/-! ## The log after the reply -/

/-- What follows the first response. -/
def afterReply (log : List Obs) : List Obs := (log.dropWhile fun o => (responseOf o).isNone).tail

/-- The reply to `IDENTIFY` asks for TLS. -/
def AsksTls (json : Json) (log : List Obs) : Prop := ∃ cfg ∈ reply json log, cfg.tlsV1 = true

/-- After a reply that asks for TLS, writes go to the TLS stream. -/
def Confined (json : Json) (log : List Obs) : Prop :=
  AsksTls json log → ∀ k offered res, .wrote k offered res ∈ afterReply log → k = .tls

/-- After a reply that asks for TLS, there are no writes. -/
def Silent (json : Json) (log : List Obs) : Prop :=
  AsksTls json log → ∀ k offered res, .wrote k offered res ∉ afterReply log

theorem Silent.confined {json : Json} {log : List Obs} (h : Silent json log) :
    Confined json log :=
  fun htls k offered res hmem => absurd hmem (h htls k offered res)

/-- There is no response yet, or what is added to the log follows the reply. -/
theorem afterReply_append (log tail : List Obs) :
    (log.findSome? responseOf = none ∧ afterReply (log ++ tail) = afterReply tail) ∨
      ((log.findSome? responseOf).isSome = true ∧
        afterReply (log ++ tail) = afterReply log ++ tail) := by
  induction log with
  | nil => exact .inl ⟨rfl, rfl⟩
  | cons o log ih =>
    cases hresp : responseOf o with
    | none =>
      simp only [afterReply, List.cons_append, List.dropWhile_cons, List.findSome?_cons, hresp,
        Option.isNone_none, if_true]
      exact ih
    | some resp =>
      refine .inr ⟨by simp [hresp], ?_⟩
      simp [afterReply, hresp]

/-- What is added to a log is all that can be new after the reply. -/
theorem mem_afterReply_append {log tail : List Obs} {o : Obs} (h : o ∈ afterReply (log ++ tail)) :
    (o ∈ afterReply log ∧ (log.findSome? responseOf).isSome = true) ∨ o ∈ tail := by
  rcases afterReply_append log tail with ⟨-, heq⟩ | ⟨hsome, heq⟩
  · rw [heq] at h
    exact .inr ((List.dropWhile_sublist _).subset (List.mem_of_mem_tail h))
  · rw [heq] at h
    rcases List.mem_append.mp h with h | h
    · exact .inl ⟨h, hsome⟩
    · exact .inr h

/-- Once there is a reply, it stays. -/
theorem reply_append {json : Json} {log : List Obs} (tail : List Obs)
    (h : (log.findSome? responseOf).isSome = true) : reply json (log ++ tail) = reply json log := by
  obtain ⟨resp, hresp⟩ := Option.isSome_iff_exists.mp h
  rw [reply, reply, List.findSome?_append, hresp]
  rfl

/-- Writes to the TLS stream keep the log confined. -/
theorem Confined.since {json : Json} {log log' : List Obs} (h : Confined json log)
    (hsince : Since (WritesTo .tls) log log') : Confined json log' := by
  obtain ⟨tail, rfl, htail⟩ := hsince
  intro htls k offered res hmem
  rcases mem_afterReply_append hmem with ⟨hmem, hsome⟩ | hmem
  · rw [AsksTls, reply_append tail hsome] at htls
    exact h htls k offered res hmem
  · exact htail _ hmem k offered res rfl

/-- If the reply did not ask for TLS so far, and nothing is written, the log is silent. -/
theorem silent_of_since {json : Json} {log log' : List Obs} (h : ¬ AsksTls json log)
    (hsince : Since (fun o => ∀ k offered res, o ≠ .wrote k offered res) log log') :
    Silent json log' := by
  obtain ⟨tail, rfl, htail⟩ := hsince
  intro htls k offered res hmem
  rcases mem_afterReply_append hmem with ⟨-, hsome⟩ | hmem
  · rw [AsksTls, reply_append tail hsome] at htls
    exact h htls
  · exact htail _ hmem k offered res rfl

namespace EventLoop

variable {json : Json} {client : Client}

/-! ## The wall -/

/-- The plain loop may write: the reply did not ask for TLS, and unless there is none yet the state
is past `Identify`. -/
structure Open (json : Json) (r : EventLoop) : Prop where
  tls : r.tls = 0
  replied : r.conn.state = .identify ∨ (r.conn.log.findSome? responseOf).isSome = true
  plain : ¬ AsksTls json r.conn.log

/-- Entries that are not responses do not change what the reply asks for. -/
theorem not_asksTls_since {log log' : List Obs} (h : ¬ AsksTls json log)
    (hsince : Since (fun o => responseOf o = none) log log') : ¬ AsksTls json log' := by
  obtain ⟨tail, rfl, htail⟩ := hsince
  have hnone : tail.findSome? responseOf = none := List.findSome?_eq_none_iff.mpr htail
  rwa [AsksTls, reply, List.findSome?_append, hnone, Option.or_none]

theorem Open.keep {r r' : EventLoop} (h : Open json r) (htls : r'.tls = r.tls)
    (hstate : r.conn.state = .identify → r'.conn.state = .identify)
    (hlog : Since (fun o => responseOf o = none) r.conn.log r'.conn.log) : Open json r' where
  tls := htls.trans h.tls
  replied := by
    rcases h.replied with hidentify | hsome
    · exact .inl (hstate hidentify)
    · right
      obtain ⟨tail, htail, -⟩ := hlog
      rw [htail, List.findSome?_append, Option.isSome_or, hsome, Bool.true_or]
  plain := not_asksTls_since h.plain hlog

/-- A response that leads on in the plain loop does not ask for TLS. -/
theorem Open.answer {r r' : EventLoop} {bs : List UInt8} {resp : String} {cfg : NsqdConfig}
    {st : State} (h : Open json r) (htls : r'.tls = r.tls)
    (hnext : Answered json client .plain r.conn.state r.nsqdConfig resp cfg st)
    (hlog : r'.conn.log = r.conn.log ++ [.read .plain bs, .response (.response resp)]) :
    Open json r' := by
  have hresp : List.findSome? responseOf [.read .plain bs, .response (.response resp)] =
      some resp := rfl
  refine ⟨htls.trans h.tls, .inr ?_, ?_⟩
  · rw [hlog, List.findSome?_append, hresp, Option.isSome_or, Option.isSome_some, Bool.or_true]
  cases hsome : (r.conn.log.findSome? responseOf).isSome with
  | true =>
    rw [hlog, AsksTls, reply_append _ hsome]
    exact h.plain
  | false =>
    have hnone : r.conn.log.findSome? responseOf = none := by simpa using hsome
    rcases h.replied with hidentify | hreplied
    · rw [hidentify] at hnext
      cases hnext with
      | identify hjson hplain _ =>
        rw [hlog, AsksTls, reply, List.findSome?_append, hnone, Option.none_or, hresp,
          Option.bind_some, hjson]
        rintro ⟨cfg', hcfg', htls'⟩
        cases hcfg'
        rw [hplain] at htls'
        cases htls'
    · rw [hsome] at hreplied
      cases hreplied

/-- Who may write, by the phase: the plain loop as long as the reply did not ask for TLS, nobody
from there on to the end of the TLS handshake, and then the TLS loop. -/
def Walled (json : Json) (r : EventLoop) : Prop :=
  match r.phase with
  | .plain evts => Open json r ∨ (r.tls = 1 ∧ evts = [] ∧ Silent json r.conn.log)
  | .handshaking => Silent json r.conn.log
  | _ => Confined json r.conn.log

theorem Open.confined {r : EventLoop} (h : Open json r) : Confined json r.conn.log :=
  fun htls => absurd htls h.plain

/-- In every phase, writes after a reply that asks for TLS go to the TLS stream. -/
theorem Walled.confined {r : EventLoop} (h : Walled json r) : Confined json r.conn.log := by
  unfold Walled at h
  split at h
  · rcases h with hopen | ⟨-, -, hsilent⟩
    · exact hopen.confined
    · exact hsilent.confined
  · exact Silent.confined h
  · exact h

/-- Up to the end of the TLS handshake there are none. -/
theorem Walled.silent {r : EventLoop} (h : Walled json r)
    (hphase : r.phase = .plain [] ∧ r.tls = 1 ∨ r.phase = .handshaking) :
    Silent json r.conn.log := by
  unfold Walled at h
  rcases hphase with ⟨hphase, htls⟩ | hphase
  · rw [hphase] at h
    rcases h with hopen | ⟨-, -, hsilent⟩
    · rw [hopen.tls] at htls
      exact absurd htls (by decide)
    · exact hsilent
  · rw [hphase] at h
    exact h

/-- An event of the plain loop keeps the wall.

**Proof sketch.** Only a response can ask for TLS.  If it does, the rest of the batch is dropped;
if `run` ends with it, nothing was written since. -/
theorem walled_plain {r : EventLoop} {io : Io} {e : Event} {x : Except Leave EventLoop}
    (h : Open json r) (hx : EventOutcome json client .plain io r e x) (evts : List Event) :
    Walled json (after .plain evts x) := by
  cases hx with
  | close _ =>
    have hnone : Since (fun o => responseOf o = none) r.conn.log
        (r.conn.log ++ [.shutdown .plain]) := .snoc rfl
    exact fun htls => absurd htls (not_asksTls_since h.plain hnone)
  | noClose _ => exact .inl (h.keep rfl id (.refl _ _))
  | messages hflushed =>
    have hflush := (flushed_writes hflushed).mono fun _ h => h.2
    refine .inl (h.keep rfl (fun hstate => ?_) hflush)
    simp only [after]
    rw [hflushed.conn]
    exact hstate
  | messagesPanic _ _ _ hflushed =>
    have hflush := (flushed_writes hflushed).mono fun _ h => h.2
    exact fun htls => absurd htls (not_asksTls_since h.plain hflush)
  | readable hread =>
    have hsilent := silent_of_since h.plain (read_writes hread .plain evts)
    cases hread with
    | panicked _ _ _ => exact hsilent.confined
    | refused _ _ _ _ _ => exact hsilent.confined
    | noResponse _ _ _ _ => exact hsilent.confined
    | eof _ => exact .inl (h.keep rfl id (.refl _ _))
    | wouldBlock _ => exact .inl (h.keep rfl id (.snoc rfl))
    | started _ hfed _ =>
      refine .inl (h.keep rfl (fun hstate => hfed.state.trans hstate) ?_)
      exact ⟨_, hfed.log, by simp [responseOf]⟩
    | unasked _ hfed _ _ _ =>
      refine .inl (h.keep rfl (fun hstate => hfed.state.trans hstate) ?_)
      exact ⟨_, hfed.log, by simp [responseOf]⟩
    | producer _ _ hk _ _ => cases hk
    | tlsSwitch _ _ _ _ _ _ _ => exact .inr ⟨rfl, rfl, hsilent⟩
    | @answered bs _ c _ resp _ _ _ hfed _ hnext =>
      have hlog : c.log ++ [.response (.response resp)] =
          r.conn.log ++ [.read .plain bs, .response (.response resp)] := by
        rw [hfed.log, List.append_assoc]
        rfl
      exact .inl (h.answer rfl hnext hlog)
  | writable hwrite =>
    have hnone := (write_writes hwrite .plain evts).mono fun _ h => h.2
    cases hwrite with
    | command hsends _ =>
      refine .inl (h.keep rfl (fun hstate => ?_) hnone)
      rw [hstate] at hsends
      cases hsends
      rfl
    | mute hmute =>
      refine .inl (h.keep rfl (fun hstate => ?_) hnone)
      rw [hstate] at hmute
      cases hmute
    | started hstate hbeat hflushed =>
      have hsame := hbeat.same
      refine .inl (h.keep ?_ (fun hidentify => ?_) hnone)
      · simp only [after]
        rw [hsame]
      · rw [hidentify] at hstate
        cases hstate
    | startedPanic _ _ _ _ _ => exact fun htls => absurd htls (not_asksTls_since h.plain hnone)

/-- An event of the TLS loop keeps the log confined. -/
theorem walled_tls {r : EventLoop} {io : Io} {e : Event} {x : Except Leave EventLoop}
    (h : Confined json r.conn.log) (hx : EventOutcome json client .tls io r e x)
    (evts : List Event) : Walled json (after .tls evts x) := by
  have hconfined := h.since (onEvent_writes hx .tls evts)
  rcases x with (r' | ⟨halt, r'⟩) | r'
  · exact hconfined
  · exact hconfined
  · exact hconfined

/-- Every step keeps the wall. -/
theorem walled_step {r r' : EventLoop} {l : Label} (h : Walled json r)
    (hstep : step json client r l = some r') : Walled json r' := by
  have hsame : ∀ (conn : Conn) (rClose : ℕ), conn.log = r.conn.log → conn.state = r.conn.state →
      Walled json { r with conn := conn, rClose := rClose } := by
    intro conn rClose hlog hstate
    unfold Walled at h ⊢
    simp only
    cases hphase : r.phase with
    | plain evts =>
      rw [hphase] at h
      rcases h with hopen | ⟨htls, hevts, hsilent⟩
      · refine .inl (hopen.keep rfl (fun h => hstate.trans h) ?_)
        rw [hlog]
        exact .refl _ _
      · rw [hlog]
        exact .inr ⟨htls, hevts, hsilent⟩
    | _ =>
      rw [hphase] at h
      rw [hlog]
      exact h
  cases step_outcome hstep with
  | send => exact hsame _ _ rfl rfl
  | close => exact hsame _ _ rfl rfl
  | pollPlain hphase htls =>
    unfold Walled at h ⊢
    rw [hphase] at h
    rcases h with hopen | ⟨hone, -, -⟩
    · exact .inl (hopen.keep rfl id (.refl _ _))
    · exact absurd hone htls
  | pollTls hphase =>
    unfold Walled at h ⊢
    rw [hphase] at h
    exact h
  | pollFailed => exact h.confined
  | @tls answer hphase =>
    have hsilent := h.silent hphase
    cases answer with
    | noConnector => exact hsilent.confined
    | connected => exact hsilent.confined
    | failure => exact hsilent.confined
    | wouldBlock => exact hsilent
  | @event k e evts io x hphase hevent =>
    unfold Walled at h
    cases k with
    | plain =>
      rw [hphase] at h
      rcases h with hopen | ⟨-, hnil, -⟩
      · exact walled_plain hopen hevent evts
      · cases hnil
    | tls =>
      rw [hphase] at h
      exact walled_tls h hevent evts

/-- The wall holds at the start. -/
theorem walled_start (json : Json) (client : Client) (cmds : List Cmd) (alloc : Alloc)
    (clock : ℕ) : Walled json (start client cmds alloc clock) := by
  refine .inl ⟨rfl, .inl rfl, ?_⟩
  rintro ⟨cfg, hcfg, -⟩
  cases hcfg

/-- Once the TLS handshake has failed, `run` is over and nothing is written.

**Proof sketch.** Induction on the run.  The step in which the handshake fails writes nothing,
and there is nothing after the reply up to it; after it, only the other threads take steps. -/
theorem silent_of_failure {cmds : List Cmd} {alloc : Alloc} {clock : ℕ} {ls : List Label}
    {r : EventLoop}
    (hrun : Machine.Run (step json client) Machine.anything (start client cmds alloc clock) ls r)
    (hfail : .tls .failure ∈ ls ∨ .tls .noConnector ∈ ls) :
    (∃ halt, r.phase = .done halt) ∧ Silent json r.conn.log := by
  induction hrun with
  | nil => rcases hfail with hfail | hfail <;> cases hfail
  | @snoc ls r r' l hrun _ hstep ih =>
    by_cases hbefore : .tls .failure ∈ ls ∨ .tls .noConnector ∈ ls
    · obtain ⟨⟨halt, hdone⟩, hsilent⟩ := ih hbefore
      cases l with
      | send cmd =>
        cases hstep
        exact ⟨⟨halt, hdone⟩, hsilent⟩
      | close =>
        cases hstep
        exact ⟨⟨halt, hdone⟩, hsilent⟩
      | _ => simp [step, hdone] at hstep
    · have hlast : l = .tls .failure ∨ l = .tls .noConnector := by
        simp only [List.mem_append, List.mem_singleton] at hfail
        tauto
      have hwalled : Walled json r := hrun.invariant (Walled json)
        (walled_start json client cmds alloc clock) fun _ _ _ h _ hstep => walled_step h hstep
      rcases hlast with rfl | rfl
      · cases step_outcome hstep with
        | tls hphase => exact ⟨⟨_, rfl⟩, hwalled.silent hphase⟩
      · cases step_outcome hstep with
        | tls hphase => exact ⟨⟨_, rfl⟩, hwalled.silent hphase⟩

/-- In every run in which the reply to `IDENTIFY` asks for TLS, whatever is in the batch with the
reply and whatever the TLS handshake does: everything written after the reply is written to the
TLS stream, and if the TLS handshake fails nothing is written after the reply at all. -/
theorem tls_confinement {cmds : List Cmd} {alloc : Alloc} {clock : ℕ} {ls : List Label}
    {r : EventLoop} {cfg : NsqdConfig}
    (hrun : Machine.Run (step json client) Machine.anything (start client cmds alloc clock) ls r)
    (hreply : reply json r.conn.log = some cfg) (htls : cfg.tlsV1 = true) :
    (∀ k offered res, .wrote k offered res ∈ afterReply r.conn.log → k = .tls) ∧
      (.tls .failure ∈ ls ∨ .tls .noConnector ∈ ls →
        ∀ k offered res, .wrote k offered res ∉ afterReply r.conn.log) := by
  have hasks : AsksTls json r.conn.log := ⟨cfg, hreply, htls⟩
  have hwalled : Walled json r := hrun.invariant (Walled json)
    (walled_start json client cmds alloc clock) fun _ _ _ h _ hstep => walled_step h hstep
  exact ⟨hwalled.confined hasks, fun hfail => (silent_of_failure hrun hfail).2 hasks⟩

set_option maxRecDepth 4000 in
/-- A command is in the channel, and its wake-up shares the batch with the reply: it is not
written before the TLS handshake, and when that fails it is not written at all. -/
theorem tls_confinement_failure :
    ∃ r : EventLoop, r.conn.r = [NsqCmd.nop.asCmd] ∧ r.phase = .done (.returned false) ∧
      handshakes r.conn.log = [.identify] ∧
      ∀ k offered res, .wrote k offered res ∉ afterReply r.conn.log := by
  have hexec : Machine.exec (step serde ⟨"t", "c", some "s", 1, .default none⟩)
      Machine.anything (start ⟨"t", "c", some "s", 1, .default none⟩ [] .exact 0)
      (writing ++ [.send NsqCmd.nop.asCmd,
        .poll [⟨.connection, .readable⟩, ⟨.client, .writable⟩] 0,
        .event ⟨.ok (Frame.ofPayload 0 (Utf8.asBytes (granted true true))).wire, fun _ => .ok 0,
          true⟩, .tls .wouldBlock, .tls .failure]) = some _ := rfl
  have hconfined := tls_confinement (Machine.Run.of_exec hexec) rfl rfl
  exact ⟨_, rfl, rfl, rfl, hconfined.2 (.inl (by simp))⟩

end EventLoop

end NsqClient
