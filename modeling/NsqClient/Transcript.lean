import NsqClient.Heartbeats
import NsqClient.MultiPublish

set_option relaxedAutoImplicit false
set_option autoImplicit false

/-!
# What the server reads

Over a whole run of `Client::run` with sockets that take every write whole, what they accepted is
the magic and a sequence of requests, which the parser of the server reads back: commands of the
handshake, answers to heartbeats, and commands of the application, multiple publishes among them.
The commands of the handshake come in their order, and so do those of the application; in between
they are mixed as the event loop wrote them.

## Main definitions

* `NsqClient.serverReads` — the parser of the server, for all the commands.
* `NsqClient.Request` — a request by its origin.

## Main results

* `NsqClient.reads_parseRequest` — every command that the server can be expected to read is read.
* `NsqClient.EventLoop.server_transcript` — the requests of a run.
-/

namespace NsqClient

/-! ## The parser -/

/-- A multiple publish as a command. -/
def parseMpubCmd (bs : List UInt8) : Option (NsqCmd × List UInt8) :=
  (parseMpub bs).map fun (x, rest) => (.mpub x.1 x.2, rest)

/-- Any command off the front of the input. -/
def parseRequest : List UInt8 → Option (NsqCmd × List UInt8) :=
  CodeStream.firstOf parseCommand parseMpubCmd

/-- What a server reads of a connection: the magic, and then commands. -/
def serverReads (bs : List UInt8) : Option (List NsqCmd) :=
  if bs.take 4 = Utf8.asBytes VERSION then CodeStream.parseAll parseRequest (bs.drop 4) else none

/-- The commands that the server can be expected to read: those with valid names and with bodies
that fit, and a multiple publish only of two messages and more. -/
def NsqCmd.Proper : NsqCmd → Prop
  | mpub topic payloads =>
    ValidName topic ∧ 2 ≤ payloads.length ∧ mmsgSize payloads < 2 ^ 31
  | cmd => cmd.Plain

/-- What is not a multiple publish. -/
theorem NsqCmd.Proper.cases {cmd : NsqCmd} (h : cmd.Proper) : cmd.Plain ∨
    ∃ topic payloads, cmd = .mpub topic payloads ∧ ValidName topic ∧ 2 ≤ payloads.length ∧
      mmsgSize payloads < 2 ^ 31 := by
  cases cmd with
  | mpub topic payloads => exact .inr ⟨topic, payloads, rfl, h⟩
  | _ => exact .inl h

/-- The parser of the other commands refuses a multiple publish. -/
theorem parseCommand_mpubBytes {topic : String} (htopic : NsqCmd.ValidName topic)
    (payloads : List (List UInt8)) (rest : List UInt8) :
    parseCommand (mpubBytes topic payloads ++ rest) = none := by
  have hwords : ∀ w ∈ (NsqCmd.mpub topic payloads).words,
      ' ' ∉ w.toList ∧ '\n' ∉ w.toList := by
    simp only [NsqCmd.words, List.forall_mem_cons, List.not_mem_nil, false_imp_iff, implies_true,
      and_true]
    exact ⟨by decide, htopic.2⟩
  have hline := readLine_append (NsqCmd.newline_not_mem_cmd hwords)
    (BigEndian.encode 4 (mmsgBlock payloads).length ++ mmsgBlock payloads ++ rest)
  rw [mpubBytes, ← asBytes_mpub topic payloads, List.append_assoc, List.cons_append, parseCommand,
    hline]
  simp only [Option.bind_eq_bind, Option.bind_some, NsqCmd.splitOn_cmd hwords, NsqCmd.words]
  rfl

/-- Every command that the server can be expected to read is read, whatever follows. -/
theorem reads_parseRequest {cmd : NsqCmd} (h : cmd.Proper) :
    CodeStream.Reads parseRequest (cmdBytes cmd.asCmd) cmd := by
  rcases h.cases with hplain | ⟨topic, payloads, rfl, htopic, hlen, hsize⟩
  · exact (reads_parseCommand hplain).first _
  · rw [Conn.cmdBytes_mpub hlen hsize]
    have hread : CodeStream.Reads parseMpubCmd (mpubBytes topic payloads)
        (.mpub topic payloads) := by
      intro rest
      rw [parseMpubCmd, parseMpub_mpubBytes htopic.2 hsize]
      rfl
    exact hread.second (parseCommand_mpubBytes htopic payloads)

/-- A command is written as at least one byte. -/
theorem cmdBytes_ne_nil {cmd : NsqCmd} (h : cmd.Proper) : cmdBytes cmd.asCmd ≠ [] := by
  rcases h.cases with hplain | ⟨topic, payloads, rfl, -, hlen, hsize⟩
  · rw [cmdBytes_asCmd hplain]
    exact List.append_ne_nil_of_right_ne_nil _ (List.cons_ne_nil _ _)
  · rw [Conn.cmdBytes_mpub hlen hsize, mpubBytes]
    exact List.append_ne_nil_of_right_ne_nil _ (List.cons_ne_nil _ _)

/-- The magic and the encodings of commands are read back as the commands. -/
theorem serverReads_stream {cmds : List NsqCmd} (h : ∀ cmd ∈ cmds, cmd.Proper) :
    serverReads (Utf8.asBytes VERSION ++ (cmds.map NsqCmd.asCmd).flatMap cmdBytes) = some cmds := by
  have hlength : (Utf8.asBytes VERSION).length = 4 := by decide
  have hstream : (cmds.map NsqCmd.asCmd).flatMap cmdBytes =
      CodeStream.stream (fun cmd => cmdBytes cmd.asCmd) cmds := by
    rw [List.flatMap_map]
    rfl
  rw [serverReads, List.take_left' hlength, if_pos rfl, List.drop_left' hlength, hstream]
  exact CodeStream.parseAll_stream (fun cmd hcmd => cmdBytes_ne_nil (h cmd hcmd))
    fun cmd hcmd => reads_parseRequest (h cmd hcmd)

/-- With valid names, and with a configuration and a secret that fit, the server can be expected to
read the commands of the handshake. -/
theorem Handshake.proper (json : Json) (client : Client) (htopic : NsqCmd.ValidName client.topic)
    (hchannel : NsqCmd.ValidName client.channel)
    (hconfig : (Utf8.asBytes (json.toString client.config)).length < 2 ^ 32)
    (hsecret : (Utf8.asBytes (client.secret.getD "")).length < 2 ^ 32) (hs : Handshake) :
    (hs.nsqCmd json client).Proper := by
  cases hs with
  | identify => exact hconfig
  | auth => exact hsecret
  | subscribe => exact ⟨htopic, hchannel⟩
  | rdy => trivial

/-! ## Requests -/

/-- A request, by its origin. -/
inductive Request where
  /-- A command of the handshake. -/
  | handshake (h : Handshake)
  /-- The answer to a heartbeat. -/
  | heartbeat
  /-- A command of the application. -/
  | application (cmd : NsqCmd)

namespace Request

/-- The command of a request. -/
def cmd (json : Json) (client : Client) : Request → NsqCmd
  | handshake h => h.nsqCmd json client
  | heartbeat => .nop
  | application cmd => cmd

/-- The requests of the handshake. -/
def ofHandshake : Request → Option Handshake
  | handshake h => some h
  | _ => none

/-- The commands of the application. -/
def ofApplication : Request → Option NsqCmd
  | application cmd => some cmd
  | _ => none

end Request

/-- What a log hands to `write_cmd` are requests.  The commands taken from the command channel are
any commands of which `P` holds. -/
theorem exists_requests (json : Json) (client : Client) (P : NsqCmd → Prop) {log : List Obs}
    (h : ∀ cmd ∈ log.filterMap Obs.taken, ∃ c : NsqCmd, P c ∧ c.asCmd = cmd) :
    ∃ reqs : List Request,
      (reqs.map (Request.cmd json client)).map NsqCmd.asCmd =
        log.filterMap (Obs.queued json client) ∧
      reqs.filterMap Request.ofHandshake = handshakes log ∧
      (reqs.filterMap Request.ofApplication).map NsqCmd.asCmd = log.filterMap Obs.taken ∧
      ∀ c ∈ reqs.filterMap Request.ofApplication, P c := by
  induction log with
  | nil => exact ⟨[], rfl, rfl, rfl, nofun⟩
  | cons o log ih =>
    have hlog : ∀ cmd ∈ log.filterMap Obs.taken, ∃ c : NsqCmd, P c ∧ c.asCmd = cmd := by
      intro cmd hcmd
      refine h cmd ?_
      rw [← List.singleton_append, List.filterMap_append]
      exact List.mem_append_right _ hcmd
    obtain ⟨reqs, hqueued, hhandshakes, htaken, hP⟩ := ih hlog
    cases o with
    | handshake hs need =>
      exact ⟨.handshake hs :: reqs, congrArg (List.cons _) hqueued,
        congrArg (List.cons hs) hhandshakes, htaken, hP⟩
    | nop =>
      exact ⟨.heartbeat :: reqs, congrArg (List.cons _) hqueued, hhandshakes, htaken, hP⟩
    | user st cmd =>
      obtain ⟨c, hc, rfl⟩ := h cmd (List.mem_filterMap.mpr ⟨_, List.mem_cons_self, rfl⟩)
      refine ⟨.application c :: reqs, congrArg (List.cons _) hqueued, hhandshakes,
        congrArg (List.cons _) htaken, ?_⟩
      intro c' hc'
      rcases List.mem_cons.mp hc' with rfl | hc'
      · exact hc
      · exact hP c' hc'
    | _ => exact ⟨reqs, hqueued, hhandshakes, htaken, hP⟩

namespace EventLoop

variable {json : Json} {client : Client}

/-- The commands of the handshake written so far are a beginning of the script. -/
theorem At.handshakes_prefix {r : EventLoop} {s : Stage} (h : At json client r s) :
    handshakes r.conn.log <+: script client (NsqClient.reply json r.conn.log) := by
  obtain ⟨free, hpaced, -⟩ := h.paced
  have hwritten := Stage.written_prefix h.valid
  have hreply := h.reply
  rw [hpaced.handshakes_eq]
  split_ifs at hreply hwritten with hreplied
  · rw [hreply]
    exact hwritten
  · rw [NsqClient.reply, hreply]
    exact hwritten

/-- The requests of a run, by what the application sent: any commands of which `P` holds. -/
theorem exists_transcript {P : NsqCmd → Prop} {sent : List Cmd} {r : EventLoop}
    (h : Delivered json client sent r) (hP : ∀ cmd, P cmd → cmd.Proper)
    (hwhole : Whole r.conn.log) (hwritten : (firstWrite r.conn.log).isSome = true)
    (hscript : ∀ hs ∈ handshakes r.conn.log, (hs.nsqCmd json client).Proper)
    (hsent : ∀ cmd ∈ sent, ∃ c : NsqCmd, P c ∧ c.asCmd = cmd) :
    ∃ reqs : List Request,
      serverReads (accepted r.conn.log) = some (reqs.map (Request.cmd json client)) ∧
      reqs.filterMap Request.ofHandshake = handshakes r.conn.log ∧
      (reqs.filterMap Request.ofApplication).map NsqCmd.asCmd ++ r.conn.r = sent ∧
      ∀ c ∈ reqs.filterMap Request.ofApplication, P c := by
  have htaken : ∀ cmd ∈ r.conn.log.filterMap Obs.taken, ∃ c : NsqCmd, P c ∧ c.asCmd = cmd := by
    intro cmd hcmd
    refine hsent cmd ?_
    rw [← h.sent]
    exact List.mem_append_left _ hcmd
  obtain ⟨reqs, hqueued, hhandshakes, happlication, hall⟩ :=
    exists_requests json client P htaken
  have hproper : ∀ cmd ∈ reqs.map (Request.cmd json client), cmd.Proper := by
    intro cmd hcmd
    obtain ⟨req, hreq, rfl⟩ := List.mem_map.mp hcmd
    cases req with
    | handshake hs =>
      refine hscript hs ?_
      rw [← hhandshakes]
      exact List.mem_filterMap.mpr ⟨_, hreq, rfl⟩
    | heartbeat => trivial
    | application c => exact hP c (hall c (List.mem_filterMap.mpr ⟨_, hreq, rfl⟩))
  have haccepted : accepted r.conn.log = Utf8.asBytes VERSION ++
      ((reqs.map (Request.cmd json client)).map NsqCmd.asCmd).flatMap cmdBytes := by
    have hdue : due json client r.conn.log = [] := by
      rw [due, h.carries.pending]
      cases hfirst : firstWrite r.conn.log with
      | none =>
        rw [hfirst] at hwritten
        cases hwritten
      | some w => rfl
    rw [hqueued, ← h.carries.framed.accepted_eq hwhole, hdue, List.append_nil]
  refine ⟨reqs, ?_, hhandshakes, ?_, hall⟩
  · rw [haccepted, serverReads_stream hproper]
  · rw [happlication, h.sent]

/-- Take any run in which the sockets take every write whole, that has written something and has not
crashed; let the commands of the handshake and those that the application sent be commands that the
server can be expected to read.  What the sockets accepted is read back by the server as requests
without a rest.  Those of the handshake are a beginning of the script for the reply to `IDENTIFY`,
and those of the application, followed by what is still in the command channel, are the commands
sent, in order and each once. -/
theorem server_transcript {cmds : List Cmd} {alloc : Alloc} {clock : ℕ} {ls : List Label}
    {r : EventLoop} (hrun : Machine.Run (step json client) Mio (start client cmds alloc clock) ls r)
    (hrunning : ¬ Crashed r) (hwhole : Whole r.conn.log)
    (hwritten : (firstWrite r.conn.log).isSome = true)
    (hscript : ∀ hs ∈ script client (reply json r.conn.log), (hs.nsqCmd json client).Proper)
    (hsent : ∀ cmd ∈ cmds ++ sends ls, ∃ c : NsqCmd, c.Proper ∧ c.asCmd = cmd) :
    ∃ reqs : List Request,
      serverReads (accepted r.conn.log) = some (reqs.map (Request.cmd json client)) ∧
      reqs.filterMap Request.ofHandshake <+: script client (reply json r.conn.log) ∧
      (reqs.filterMap Request.ofApplication).map NsqCmd.asCmd ++ r.conn.r = cmds ++ sends ls := by
  have hdelivered := delivered_run (hrun.mono fun _ _ _ => trivial)
    hrunning
  obtain ⟨s, -, hat⟩ := at_run (at_start json client cmds alloc clock) hrun hrunning
  have hinit := hat.handshakes_prefix
  obtain ⟨reqs, hreads, hhandshakes, happlication, -⟩ := exists_transcript hdelivered
    (fun _ => id) hwhole hwritten (fun hs hmem => hscript hs (hinit.subset hmem)) hsent
  exact ⟨reqs, hreads, hhandshakes ▸ hinit, happlication⟩

set_option maxRecDepth 4000 in
/-- A `FIN` after the handshake. -/
theorem server_transcript_fin :
    ∃ (r : EventLoop) (reqs : List Request), r.conn.r = [] ∧
      serverReads (accepted r.conn.log) =
        some (reqs.map (Request.cmd serde ⟨"t", "c", none, 1, .default none⟩)) ∧
      (reqs.filterMap Request.ofApplication).map NsqCmd.asCmd ++ r.conn.r =
        [(NsqCmd.fin "0123456789abcdef").asCmd] := by
  have hexec : Machine.exec (step serde ⟨"t", "c", none, 1, .default none⟩) Mio
      (start ⟨"t", "c", none, 1, .default none⟩ [] .exact 0)
      (joining ++ [.send (NsqCmd.fin "0123456789abcdef").asCmd] ++ writing) = some _ := rfl
  have hscript := Handshake.proper serde
    ⟨"t", "c", none, 1, .default none⟩ ⟨by decide, by decide, by decide⟩
    ⟨by decide, by decide, by decide⟩ (by decide) (by decide)
  obtain ⟨reqs, hreads, -, happlication⟩ := server_transcript (Machine.Run.of_exec hexec)
    (not_crashed_of_plain rfl) (by decide) rfl (fun hs _ => hscript hs) (by
      intro cmd hcmd
      have hcmd : cmd ∈ [(NsqCmd.fin "0123456789abcdef").asCmd] := hcmd
      rw [List.mem_singleton.mp hcmd]
      exact ⟨.fin "0123456789abcdef", ⟨by decide, by decide, by decide⟩, rfl⟩)
  exact ⟨_, reqs, rfl, hreads, happlication⟩

end EventLoop

end NsqClient
