import NsqClient.Steps

set_option relaxedAutoImplicit false
set_option autoImplicit false

/-!
# Commands on the wire

Every command the event loop hands to `write_cmd` is written before anything else is handed to it.
So a write offers the socket one command or none, the first write has the magic in front, and
between two steps of the event loop the write buffer holds nothing else.  The commands from the
channel are written in the order in which they were sent, each once.

## Main definitions

* `NsqClient.Obs.queued` — the command an entry of the log hands to `write_cmd`.
* `NsqClient.due` — what the write buffer holds, by the log.
* `NsqClient.Framed` — every write offers what is due, and that is at most one command.
* `NsqClient.Conn.Carries` — the invariant of a connection.

## Main results

* `NsqClient.EventLoop.carries_step` — a step of the event loop leaves no command in the buffer.
* `NsqClient.EventLoop.delivery_in_order` — what was sent is what was written and what is still in
  the channel.
-/

namespace NsqClient

/-! ## What a log hands to the encoder -/

/-- The commands of the handshake. -/
def Handshake.nsqCmd (json : Json) (client : Client) : Handshake → NsqCmd
  | identify => .identify (json.toString client.config)
  | auth => .auth (client.secret.getD "")
  | subscribe => .subscribe client.topic client.channel
  | rdy => .rdy client.rdy

/-- The command an entry hands to `write_cmd`. -/
def Obs.queued (json : Json) (client : Client) : Obs → Option Cmd
  | handshake h _ => some (h.nsqCmd json client).asCmd
  | nop => some NsqCmd.nop.asCmd
  | user _ cmd => some cmd
  | _ => none

/-- The command an entry took from the command channel. -/
def Obs.taken : Obs → Option Cmd
  | user _ cmd => some cmd
  | _ => none

/-- What was logged since the last write. -/
def unwritten (log : List Obs) : List Obs :=
  log.foldl (fun os o => if (writeOf o).isSome then [] else os ++ [o]) []

/-- The commands handed to `write_cmd` since the last write. -/
def pending (json : Json) (client : Client) (log : List Obs) : List Cmd :=
  (unwritten log).filterMap (Obs.queued json client)

/-- What the write buffer holds: the magic, as long as nothing was written, and the commands since
the last write. -/
def due (json : Json) (client : Client) (log : List Obs) : List UInt8 :=
  (if (firstWrite log).isNone then Utf8.asBytes VERSION else []) ++
    (pending json client log).flatMap cmdBytes

/-- Every write offers what is due, and that is at most one command. -/
def Framed (json : Json) (client : Client) (log : List Obs) : Prop :=
  ∀ pre k offered res post, log = pre ++ .wrote k offered res :: post →
    offered = due json client pre ∧ (pending json client pre).length ≤ 1

section Logs

variable {json : Json} {client : Client} {log : List Obs}

theorem unwritten_snoc (log : List Obs) (o : Obs) :
    unwritten (log ++ [o]) = if (writeOf o).isSome then [] else unwritten log ++ [o] := by
  rw [unwritten, List.foldl_append]
  rfl

theorem firstWrite_snoc (log : List Obs) (o : Obs) :
    firstWrite (log ++ [o]) = (firstWrite log).or (writeOf o) := by
  rw [firstWrite, List.findSome?_append]
  cases hwrite : writeOf o <;> simp [firstWrite, hwrite]

/-- Before the first write all that was logged was logged since the last. -/
theorem unwritten_of_firstWrite (h : firstWrite log = none) : unwritten log = log := by
  induction log using List.reverseRecOn with
  | nil => rfl
  | append_singleton log o ih =>
    rw [firstWrite_snoc, Option.or_eq_none_iff] at h
    rw [unwritten_snoc, h.2, ih h.1]
    exact if_neg nofun

/-- An entry that is not a write. -/
theorem due_snoc {o : Obs} (ho : writeOf o = none) :
    due json client (log ++ [o]) =
        due json client log ++ ((o.queued json client).toList).flatMap cmdBytes ∧
      pending json client (log ++ [o]) =
        pending json client log ++ (o.queued json client).toList := by
  have hpending : pending json client (log ++ [o]) =
      pending json client log ++ (o.queued json client).toList := by
    rw [pending, unwritten_snoc, ho]
    cases hq : o.queued json client <;> simp [pending, hq]
  refine ⟨?_, hpending⟩
  rw [due, hpending, firstWrite_snoc, ho, Option.or_none, List.flatMap_append, due,
    List.append_assoc]

/-- A write. -/
theorem due_wrote (k : Stream) (offered : List UInt8) (res : WriteResult) :
    due json client (log ++ [.wrote k offered res]) = [] ∧
      pending json client (log ++ [.wrote k offered res]) = [] := by
  have hpending : pending json client (log ++ [.wrote k offered res]) = [] := by
    rw [pending, unwritten_snoc]
    rfl
  refine ⟨?_, hpending⟩
  rw [due, hpending, firstWrite_snoc]
  cases firstWrite log <;> rfl

theorem framed_nil : Framed json client [] := by
  intro pre k offered res post h
  exact absurd h.symm (by simp)

/-- One more entry that is not a write. -/
theorem Framed.snoc {o : Obs} (h : Framed json client log) (ho : writeOf o = none) :
    Framed json client (log ++ [o]) := by
  intro pre k offered res post hsplit
  rcases split_append hsplit with ⟨post', hlog⟩ | ⟨mid, -, hmid⟩
  · exact h pre k offered res post' hlog
  · rcases mid with _ | ⟨o', mid⟩
    · cases hmid
      cases ho
    · cases mid <;> cases hmid

/-- One more write. -/
theorem Framed.wrote {k : Stream} {res : WriteResult} (h : Framed json client log)
    (hone : (pending json client log).length ≤ 1) :
    Framed json client (log ++ [.wrote k (due json client log) res]) := by
  intro pre k' offered res' post hsplit
  rcases split_append hsplit with ⟨post', hlog⟩ | ⟨mid, rfl, hmid⟩
  · exact h pre k' offered res' post' hlog
  · rcases mid with _ | ⟨o', mid⟩
    · cases hmid
      rw [List.append_nil]
      exact ⟨rfl, hone⟩
    · cases mid <;> cases hmid

/-- If every write takes everything, what is accepted and what is still due are the magic and all
the commands, in order. -/
theorem Framed.accepted_eq (h : Framed json client log)
    (hall : ∀ w ∈ log.filterMap writeOf, TakesAll w.2.2 w.2.1) :
    accepted log ++ due json client log =
      Utf8.asBytes VERSION ++ (log.filterMap (Obs.queued json client)).flatMap cmdBytes := by
  induction log using List.reverseRecOn with
  | nil => simp [due, pending, unwritten, firstWrite]
  | append_singleton log o ih =>
    have hlog : Framed json client log := by
      intro pre k offered res post hsplit
      exact h pre k offered res (post ++ [o]) (by rw [hsplit]; simp)
    rw [List.filterMap_append] at hall
    have ih := ih hlog fun w hw => hall w (List.mem_append_left _ hw)
    cases hwrite : writeOf o with
    | none =>
      have hnone : accepted [o] = [] := by
        cases o with
        | wrote k offered res => cases hwrite
        | _ => rfl
      rw [accepted_append, hnone, List.append_nil, (due_snoc hwrite).1, ← List.append_assoc, ih,
        List.filterMap_append, List.flatMap_append, List.append_assoc]
      cases hq : o.queued json client <;> simp [hq]
    | some w =>
      cases o with
      | wrote k offered res =>
        obtain ⟨hoffered, -⟩ := h log k offered res [] rfl
        have htakes : taken res offered = offered :=
          hall (k, offered, res) (List.mem_append_right _ (List.mem_singleton_self _))
        rw [accepted_wrote, htakes, hoffered, (due_wrote k _ res).1, List.append_nil, ih,
          List.filterMap_append]
        simp [Obs.queued]
      | _ => cases hwrite

end Logs

/-! ## Connections -/

namespace Conn

variable {json : Json} {client : Client}

/-- Every write so far offered what was due, and the write buffer holds what is due: the commands
`cmds`. -/
structure Carries (json : Json) (client : Client) (cmds : List Cmd) (c : Conn) : Prop where
  framed : Framed json client c.log
  wBuf : c.wBuf.bytes = due json client c.log
  pending : pending json client c.log = cmds

/-- Entries that are neither writes nor commands. -/
theorem Carries.keep {cmds : List Cmd} {c c' : Conn} (h : Carries json client cmds c)
    (hlog : Since (fun o => writeOf o = none ∧ o.queued json client = none) c.log c'.log)
    (hbuf : c'.wBuf = c.wBuf) : Carries json client cmds c' := by
  obtain ⟨tail, htail, hnone⟩ := hlog
  have hall : Framed json client (c.log ++ tail) ∧
      due json client (c.log ++ tail) = due json client c.log ∧
      NsqClient.pending json client (c.log ++ tail) = NsqClient.pending json client c.log := by
    clear htail
    induction tail using List.reverseRecOn with
    | nil => simpa using h.framed
    | append_singleton tail o ih =>
      obtain ⟨hframed, hdue, hpending⟩ := ih fun o' ho' => hnone o' (List.mem_append_left _ ho')
      obtain ⟨hwrite, hqueued⟩ := hnone o (List.mem_append_right _ (List.mem_singleton_self o))
      obtain ⟨hdue', hpending'⟩ := @due_snoc json client (c.log ++ tail) o hwrite
      rw [hqueued] at hdue' hpending'
      rw [← List.append_assoc]
      refine ⟨hframed.snoc hwrite, ?_, ?_⟩
      · rw [hdue', hdue]
        exact List.append_nil _
      · rw [hpending', hpending]
        exact List.append_nil _
  rw [← htail] at hall
  refine ⟨hall.1, ?_, hall.2.2.trans h.pending⟩
  rw [hbuf, hall.2.1]
  exact h.wBuf

/-- One command is handed to `write_cmd`. -/
theorem Carries.cmd {c c' : Conn} {o : Obs} {cmd : Cmd} (h : Carries json client [] c)
    (ho : writeOf o = none) (hcmd : o.queued json client = some cmd)
    (hlog : c'.log = c.log ++ [o]) (hbuf : c'.wBuf.bytes = c.wBuf.bytes ++ cmdBytes cmd) :
    Carries json client [cmd] c' := by
  obtain ⟨hdue, hpending⟩ := @due_snoc json client c.log o ho
  refine ⟨?_, ?_, ?_⟩
  · rw [hlog]
    exact h.framed.snoc ho
  · rw [hlog, hdue, hbuf, h.wBuf, hcmd]
    simp
  · rw [hlog, hpending, h.pending, hcmd]
    rfl

/-- A write leaves nothing. -/
theorem Carries.wrote {c c' : Conn} {cmds : List Cmd} {k : Stream} {res : WriteResult}
    (h : Carries json client cmds c) (hone : cmds.length ≤ 1)
    (hlog : c'.log = c.log ++ [.wrote k c.wBuf.bytes res]) (hbuf : c'.wBuf.bytes = []) :
    Carries json client [] c' := by
  rw [h.wBuf] at hlog
  obtain ⟨hdue, hpending⟩ := @due_wrote json client c.log k (due json client c.log) res
  refine ⟨?_, ?_, ?_⟩
  · rw [hlog]
    exact h.framed.wrote (by rwa [h.pending])
  · rw [hlog, hdue, hbuf]
  · rw [hlog, hpending]

/-- One command is handed to `write_cmd` and written. -/
theorem Carries.sends {c c' : Conn} {o : Obs} {cmd : Cmd} {k : Stream} {bytes : List UInt8}
    {res : WriteResult} (h : Carries json client [] c) (ho : writeOf o = none)
    (hcmd : o.queued json client = some cmd) (hbytes : bytes = c.wBuf.bytes ++ cmdBytes cmd)
    (hlog : c'.log = c.log ++ [o, .wrote k bytes res]) (hbuf : c'.wBuf.bytes = []) :
    Carries json client [] c' := by
  have hone := @Carries.cmd json client c { c with
    wBuf := ⟨bytes, bytes.length, c.wBuf.slack, Nat.le_refl _⟩
    log := c.log ++ [o] } o cmd h ho hcmd rfl hbytes
  refine @Carries.wrote json client _ c' _ k res hone (Nat.le_refl 1) ?_ hbuf
  rw [hlog]
  simp

/-- One pass of the loop in `write_messages`. -/
theorem carries_writeMessage {k : Stream} {res : WriteResult} {cmd : Cmd} {c c' : Conn}
    (h : Carries json client [] c) (hwrite : writeMessage k res c cmd = .ok c') :
    Carries json client [] c' := by
  obtain ⟨c₁, hcmd, hwrite⟩ := Except.bind_eq_ok.mp hwrite
  obtain ⟨hbytes, hc₁⟩ := wBuf_of_writeCmd hcmd
  rw [write, writeTcp_eq] at hwrite
  cases hwrite
  have hlog : c₁.log = c.log ++ [.user c.state cmd] := by rw [hc₁]; rfl
  refine @Carries.sends json client c _ (.user c.state cmd) cmd k _ res h rfl rfl hbytes ?_ rfl
  simp [note, hlog]

/-- The loop of `write_messages`. -/
theorem carries_writeEach {k : Stream} {ws : ℕ → WriteResult} {cmds : List Cmd} {c c' : Conn}
    (h : Carries json client [] c) (hwrite : writeEach k ws cmds c = .ok c') :
    Carries json client [] c' := by
  induction cmds generalizing ws c with
  | nil =>
    cases hwrite
    exact h
  | cons cmd cmds ih =>
    obtain ⟨c₁, hone, hrest⟩ := Except.bind_eq_ok.mp hwrite
    exact ih (carries_writeMessage h hone) hrest

/-- What `write_messages` takes from the channel is logged, in order. -/
theorem taken_writeEach {k : Stream} {ws : ℕ → WriteResult} {cmds : List Cmd} {c c' : Conn}
    (hwrite : writeEach k ws cmds c = .ok c') :
    c'.log.filterMap Obs.taken = c.log.filterMap Obs.taken ++ cmds := by
  induction cmds generalizing ws c with
  | nil =>
    cases hwrite
    exact (List.append_nil _).symm
  | cons cmd cmds ih =>
    obtain ⟨c₁, hone, hrest⟩ := Except.bind_eq_ok.mp hwrite
    obtain ⟨c₂, hcmd, hone⟩ := Except.bind_eq_ok.mp hone
    obtain ⟨-, hc₂⟩ := wBuf_of_writeCmd hcmd
    rw [write, writeTcp_eq] at hone
    cases hone
    have hlog : c₂.log = c.log ++ [.user c.state cmd] := by rw [hc₂]; rfl
    rw [ih hrest]
    simp [note, hlog, Obs.taken]

end Conn

/-! ## The event loop -/

namespace EventLoop

variable {json : Json} {client : Client}

/-- The commands `sent` to the channel so far are those written and those still in the channel, and
the write buffer holds none. -/
structure Delivered (json : Json) (client : Client) (sent : List Cmd) (r : EventLoop) : Prop where
  config : r.conn.config = client.config
  carries : Conn.Carries json client [] r.conn
  sent : r.conn.log.filterMap Obs.taken ++ r.conn.r = sent

/-- What neither writes nor takes a command. -/
theorem Delivered.keep {sent : List Cmd} {r r' : EventLoop} (h : Delivered json client sent r)
    (hlog : Since (fun o => writeOf o = none ∧ o.queued json client = none) r.conn.log r'.conn.log)
    (hsame : r'.conn.config = r.conn.config ∧ r'.conn.wBuf = r.conn.wBuf ∧
      r'.conn.r = r.conn.r) : Delivered json client sent r' := by
  refine ⟨hsame.1.trans h.config, h.carries.keep hlog hsame.2.1, ?_⟩
  obtain ⟨tail, htail, hnone⟩ := hlog
  have htaken : tail.filterMap Obs.taken = [] := by
    rw [List.filterMap_eq_nil_iff]
    intro o ho
    have hqueued := (hnone o ho).2
    cases o with
    | user st cmd => cases hqueued
    | _ => rfl
  rw [htail, List.filterMap_append, htaken, List.append_nil, hsame.2.2]
  exact h.sent

/-- A handshake command is the one its entry stands for. -/
theorem Sends.nsqCmd {k : Stream} {st st' : State} {h : Handshake} {cmd : NsqCmd} {need : Bool}
    (hsends : Sends json client client.config k st h cmd st' need) :
    cmd = h.nsqCmd json client := by
  cases hsends with
  | identify => rfl
  | auth hsecret => rw [Handshake.nsqCmd, hsecret, Option.getD_some]
  | subscribe _ => rfl
  | rdy => rfl

/-- A call that succeeds. -/
theorem eq_ok_of_call {r r' : EventLoop} {x : Except (Panic × Conn) Conn}
    (h : r.call x = .ok r') : x = .ok r'.conn ∧ r' = { r with conn := r'.conn } := by
  rcases x with ⟨p, c⟩ | c
  · cases h
  · cases h
    exact ⟨rfl, rfl⟩

/-- A run of `write_messages`. -/
theorem Delivered.messages {sent : List Cmd} {r : EventLoop} {k : Stream} {ws : ℕ → WriteResult}
    {c c' : Conn} (h : Delivered json client sent { r with conn := c })
    (hwrite : c.writeMessages k ws = .ok c') :
    Delivered json client sent { r with conn := c' } := by
  have hflushed := Conn.flushed_of_writeEach hwrite
  have htaken := Conn.taken_writeEach hwrite
  have hnone : c'.r = [] := by rw [hflushed.conn]
  refine ⟨?_, ?_, ?_⟩
  · simp only
    rw [hflushed.conn]
    exact h.config
  · have hempty : Conn.Carries json client [] { c with r := [] } :=
      ⟨h.carries.framed, h.carries.wBuf, h.carries.pending⟩
    exact Conn.carries_writeEach hempty hwrite
  · simp only
    rw [htaken, hnone, List.append_nil]
    exact h.sent

/-- The answer to a heartbeat. -/
theorem Delivered.beat {sent : List Cmd} {r r' : EventLoop} {k : Stream} {io : Io}
    (h : Delivered json client sent r) (hbeat : Beat k io r r') :
    Delivered json client sent r' := by
  cases hbeat with
  | quiet _ => exact h
  | @nop buf _ hbuf =>
    refine ⟨h.config, h.carries.sends rfl rfl hbuf rfl rfl, ?_⟩
    rw [← h.sent]
    simp [Obs.taken]

/-- A connection that is not readable, after the handshake. -/
theorem Delivered.onStarted {sent : List Cmd} {r r' : EventLoop} {k : Stream} {io : Io}
    (h : Delivered json client sent r) (hon : onStarted k io r = .ok r') :
    Delivered json client sent r' := by
  obtain ⟨r₁, hr₁, hon⟩ := Except.bind_eq_ok.mp hon
  obtain ⟨r₂, hr₂, hon⟩ := Except.bind_eq_ok.mp hon
  cases hon
  obtain ⟨r₁', hbeat, hok⟩ := beat_cases k io r
  rw [hr₁] at hok
  cases hok
  obtain ⟨hwrite, hr₂⟩ := eq_ok_of_call hr₂
  have hmsgs := (h.beat hbeat).messages hwrite
  exact hmsgs.keep (.refl _ _) ⟨rfl, rfl, rfl⟩

/-- A read leaves the configuration, the write buffer and the command channel alone. -/
theorem unqueued_of_fed {k : Stream} {bs : List UInt8} {fs : List Frame} {c c' : Conn}
    (h : Conn.Fed k bs fs c c') : c'.config = c.config ∧ c'.wBuf = c.wBuf ∧ c'.r = c.r := by
  rw [h.same]
  exact ⟨rfl, rfl, rfl⟩

/-- What a readable connection logs are neither writes nor commands. -/
theorem read_unqueued {r : EventLoop} {k : Stream} {io : Io} {x : Except Leave EventLoop}
    (hx : ReadOutcome json client k io r x) (next : List Event → Phase) (evts : List Event) :
    Since (fun o => writeOf o = none ∧ o.queued json client = none) r.conn.log
      (after next evts x).conn.log := by
  refine (read_log hx next evts).mono ?_
  rintro o (⟨bs, rfl⟩ | ⟨resp, rfl⟩ | rfl | rfl) <;> exact ⟨rfl, rfl⟩

/-- An event that does not crash.

**Proof sketch.** A readable connection logs no writes and no commands.  A writable one hands one
command of the handshake or none to the encoder and then writes; after the handshake, and for a
wake-up, the commands from the channel are handed over and written one by one. -/
theorem delivered_event {sent : List Cmd} {r : EventLoop} {k : Stream} {io : Io} {e : Event}
    {next : List Event → Phase} {evts : List Event} (h : Delivered json client sent r)
    (hrunning : ¬ Crashed (after next evts (onEvent json client k io e r))) :
    Delivered json client sent (after next evts (onEvent json client k io e r)) := by
  obtain ⟨x, heq⟩ : ∃ x, onEvent json client k io e r = x := ⟨_, rfl⟩
  have hx := onEvent_outcome json client k io e r
  rw [heq] at hx hrunning ⊢
  cases hx with
  | close _ => exact h.keep (.snoc ⟨rfl, rfl⟩) ⟨rfl, rfl, rfl⟩
  | noClose _ => exact h.keep (.refl _ _) ⟨rfl, rfl, rfl⟩
  | messages _ =>
    have hmsgs := h.messages (eq_ok_of_call heq).1
    exact hmsgs.keep (.refl _ _) ⟨rfl, rfl, rfl⟩
  | messagesPanic _ _ _ _ => exact absurd (.inl ⟨_, rfl⟩) hrunning
  | readable hread =>
    have hlog := read_unqueued hread next evts
    cases hread with
    | panicked _ _ _ => exact absurd (.inl ⟨_, rfl⟩) hrunning
    | refused _ _ _ hhalt _ => exact absurd (crashed_of_refused hhalt) hrunning
    | noResponse _ _ _ _ => exact absurd (.inl ⟨_, rfl⟩) hrunning
    | eof _ => exact h.keep hlog ⟨rfl, rfl, rfl⟩
    | wouldBlock _ => exact h.keep hlog ⟨rfl, rfl, rfl⟩
    | started _ hfed _ =>
      have hsame := unqueued_of_fed hfed
      exact h.keep hlog hsame
    | unasked _ hfed _ _ _ =>
      have hsame := unqueued_of_fed hfed
      exact h.keep hlog hsame
    | producer _ hfed _ _ _ =>
      have hsame := unqueued_of_fed hfed
      exact h.keep hlog hsame
    | tlsSwitch _ hfed _ _ _ _ _ =>
      have hsame := unqueued_of_fed hfed
      exact h.keep hlog hsame
    | answered _ hfed _ _ =>
      have hsame := unqueued_of_fed hfed
      exact h.keep hlog hsame
  | writable hwrite =>
    cases hwrite with
    | @command hs cmd st need buf hsends hbuf =>
      rw [h.config] at hsends
      have hqueued :
          (Obs.handshake hs r.conn.needResponse).queued json client = some cmd.asCmd := by
        rw [hsends.nsqCmd]
        rfl
      refine ⟨h.config, h.carries.sends rfl hqueued hbuf rfl rfl, ?_⟩
      rw [← h.sent]
      simp [after, Obs.taken]
    | mute _ =>
      refine ⟨h.config, h.carries.wrote (Nat.zero_le 1) rfl rfl, ?_⟩
      rw [← h.sent]
      simp [after, Obs.taken]
    | @started r₁ c hstarted _ _ =>
      have hon : onStarted k io r = .ok { r₁ with conn := c, interest := .readable } := by
        rw [← heq]
        exact (if_neg (by simp [hstarted])).symm
      have hdone := h.onStarted hon
      exact hdone.keep (.refl _ _) ⟨rfl, rfl, rfl⟩
    | startedPanic _ _ _ _ _ => exact absurd (.inl ⟨_, rfl⟩) hrunning

/-- The commands sent in a run. -/
def sends (ls : List Label) : List Cmd :=
  ls.filterMap fun
    | .send cmd => some cmd
    | _ => none

/-- A step that does not crash: a command sent goes to the end of the channel. -/
theorem carries_step {sent : List Cmd} {r r' : EventLoop} {l : Label}
    (h : Delivered json client sent r) (hstep : step json client r l = some r')
    (hrunning : ¬ Crashed r') : Delivered json client (sent ++ sends [l]) r' := by
  have hsame : sends [l] = [] → r'.conn.log = r.conn.log ∧ r'.conn.config = r.conn.config ∧
      r'.conn.wBuf = r.conn.wBuf ∧ r'.conn.r = r.conn.r →
      Delivered json client (sent ++ sends [l]) r' := by
    rintro hnone ⟨hlog, hrest⟩
    rw [hnone, List.append_nil]
    refine h.keep ?_ hrest
    rw [hlog]
    exact .refl _ _
  cases l with
  | event io =>
    have hnone : sends [Label.event io] = [] := rfl
    rw [hnone, List.append_nil]
    obtain ⟨k, e, evts, -, rfl⟩ := exists_event_of_step hstep
    exact delivered_event h hrunning
  | send cmd =>
    cases hstep
    refine ⟨h.config, ⟨h.carries.framed, h.carries.wBuf, h.carries.pending⟩, ?_⟩
    have hone : sends [.send cmd] = [cmd] := rfl
    rw [hone, ← h.sent, List.append_assoc]
  | close =>
    cases hstep
    exact hsame rfl ⟨rfl, rfl, rfl, rfl⟩
  | poll evts now =>
    cases step_outcome hstep with
    | pollPlain _ _ => exact hsame rfl ⟨rfl, rfl, rfl, rfl⟩
    | pollTls _ => exact hsame rfl ⟨rfl, rfl, rfl, rfl⟩
  | pollFailed =>
    cases step_outcome hstep
    exact hsame rfl ⟨rfl, rfl, rfl, rfl⟩
  | tls answer =>
    cases step_outcome hstep
    cases answer <;> exact hsame rfl ⟨rfl, rfl, rfl, rfl⟩

/-- It holds at the start: the magic is in the buffer. -/
theorem delivered_start (json : Json) (client : Client) (cmds : List Cmd) (alloc : Alloc)
    (clock : ℕ) : Delivered json client cmds (start client cmds alloc clock) := by
  refine ⟨rfl, ⟨framed_nil, ?_, rfl⟩, rfl⟩
  simp [start, Conn.magic, Conn.new, BytesMut.new, due, pending, unwritten, firstWrite]

/-- A run that does not crash. -/
theorem delivered_run {cmds : List Cmd} {alloc : Alloc} {clock : ℕ} {ls : List Label}
    {r : EventLoop}
    (hrun : Machine.Run (step json client) Machine.anything (start client cmds alloc clock) ls r)
    (hrunning : ¬ Crashed r) : Delivered json client (cmds ++ sends ls) r := by
  induction hrun with
  | nil =>
    have hnone : cmds ++ sends [] = cmds := List.append_nil cmds
    rw [hnone]
    exact delivered_start json client cmds alloc clock
  | @snoc ls r r' l _ _ hstep ih =>
    have hsent : cmds ++ sends (ls ++ [l]) = cmds ++ sends ls ++ sends [l] := by
      rw [sends, List.filterMap_append, List.append_assoc]
      rfl
    rw [hsent]
    exact carries_step (ih fun hc => hrunning (crashed_of_step hc hstep)) hstep hrunning

/-- Whatever the threads send to the command channel, and however that interleaves with the steps of
the event loop: at every point of a run that has not panicked, the commands taken from the channel
and written, followed by what is in the channel, are the commands sent, in order and each once.
Every write to a socket offers the magic, if it is the first, and then at most one command, the one
handed to `write_cmd` since the write before; nothing is left in the buffer but the magic, before
the first write.  So with sockets that take every write whole, what they accepted is the magic and
all the commands handed to `write_cmd`, whole and in order. -/
theorem delivery_in_order {cmds : List Cmd} {alloc : Alloc} {clock : ℕ} {ls : List Label}
    {r : EventLoop}
    (hrun : Machine.Run (step json client) Machine.anything (start client cmds alloc clock) ls r)
    (hrunning : ¬ Crashed r) :
    r.conn.log.filterMap Obs.taken ++ r.conn.r = cmds ++ sends ls ∧
      Framed json client r.conn.log ∧ pending json client r.conn.log = [] ∧
      r.conn.wBuf.bytes =
        (if (firstWrite r.conn.log).isNone then Utf8.asBytes VERSION else []) ∧
      ((∀ w ∈ r.conn.log.filterMap writeOf, TakesAll w.2.2 w.2.1) →
        accepted r.conn.log ++ r.conn.wBuf.bytes = Utf8.asBytes VERSION ++
          (r.conn.log.filterMap (Obs.queued json client)).flatMap cmdBytes) := by
  have h := delivered_run hrun hrunning
  refine ⟨h.sent, h.carries.framed, h.carries.pending, ?_, fun hall => ?_⟩
  · rw [h.carries.wBuf, due, h.carries.pending, List.flatMap_nil, List.append_nil]
  · rw [h.carries.wBuf]
    exact h.carries.framed.accepted_eq hall

set_option maxRecDepth 4000 in
/-- Two commands, sent before and after a heartbeat: `NOP` is written between them, and each of the
three is written whole. -/
theorem delivery_in_order_nop :
    ∃ r : EventLoop, r.conn.r = [] ∧ r.conn.log.filterMap Obs.taken =
        [(NsqCmd.fin "a").asCmd, (NsqCmd.fin "b").asCmd] ∧
      accepted r.conn.log = Utf8.asBytes "  V2IDENTIFY\n" ++ BigEndian.encode 4 269 ++
        Utf8.asBytes (asking false) ++ Utf8.asBytes "SUB t c\nRDY 1\nFIN a\nNOP\nFIN b\n" := by
  have hexec : Machine.exec (step serde ⟨"t", "c", none, 1, .default none⟩) Machine.anything
      (start ⟨"t", "c", none, 1, .default none⟩ [] .exact 0)
      (joining ++
        [.send (NsqCmd.fin "a").asCmd] ++ writing ++ [.send (NsqCmd.fin "b").asCmd] ++
        replying HEARTBEAT ++ writing) = some _ := rfl
  have hnot : ∀ {evts : List Event} {r : EventLoop}, r.phase = .plain evts → ¬ Crashed r :=
    fun h => not_crashed_of_phase (k := .plain) h
  obtain ⟨hsent, -, -, hbuf, haccepted⟩ := delivery_in_order (Machine.Run.of_exec hexec) (hnot rfl)
  have htaken := (List.append_nil _).symm.trans hsent
  exact ⟨_, rfl, htaken, ((List.append_nil _).symm.trans (congrArg _ hbuf).symm).trans
    ((haccepted (by decide)).trans (by decide))⟩

end EventLoop

end NsqClient
