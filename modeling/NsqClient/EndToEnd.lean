import NsqClient.Serial
import NsqClient.Transcript

set_option relaxedAutoImplicit false
set_option autoImplicit false

/-!
# From the socket to the socket

What a client is to the server, with all its threads: what it reads of the socket and what it
writes to it, at any point of any run.

Two clients that received the same bytes handled the same messages.  What the server reads back,
besides the requests of the client itself, is what a single thread sends that makes the calls of the
handlers one after the other.

The two examples of the repository are two cases.  `MyReader` of the example consumer
(`examples/consumer/src/main.rs`) sends `FIN` with the id of the message: the ids in the `FIN`
commands are the ids of the message frames, in order and each once.  `MyProducer` of the example
producer (`examples/producer/src/main.rs`) publishes a batch of messages: the batches arrive whole.

## Main definitions

* `NsqClient.Threads.MyReader`, `NsqClient.Threads.MyProducer` — the code of the examples.
* `NsqClient.Threads.finIds`, `NsqClient.Threads.frameIds` — the ids on the two directions of the
  socket.

## Main results

* `NsqClient.Threads.handled_comparable` — two runs over the same bytes.
* `NsqClient.Threads.served_serially` — the server sees a single thread.
* `NsqClient.Threads.finished_exactly_once` — the ids in the commands are the ids of the messages.
* `NsqClient.Threads.published_whole` — the batches arrive whole.
-/

namespace NsqClient

namespace Threads

variable {n : ℕ} {json : Json} {client : Client}

/-- `MyReader` of the example consumer. -/
def MyReader : Code n 0
  | _, .onMsg _ msg => [(NsqCmd.fin msg.id).asCmd]
  | _, .onClose _ => []
  | _, .publish _ => []

/-- The messages of a batch. -/
def batch : List (List UInt8) := (List.range 100).map fun i => Utf8.asBytes ("msg-" ++ toString i)

/-- `MyProducer` of the example producer. -/
def MyProducer {m : ℕ} : Code 0 m
  | _, .publish _ => [(NsqCmd.mpub "test" batch).asCmd]
  | _, .onMsg _ _ => []
  | _, .onClose _ => []

/-- The ids in the `FIN` commands. -/
def finIds (cmds : List NsqCmd) : List String :=
  cmds.filterMap fun
    | .fin id => some id
    | _ => none

/-- The ids of the messages that frames carry, as `decode_msg` reads them. -/
def frameIds (fs : List Frame) : List String :=
  (messages fs).map fun payload => (msgFields payload).2.2.1

/-! ## The commands -/

/-- A single thread sends one command for each message. -/
theorem cmdsOf_serial_MyReader (tasks : List (Task n 0)) :
    cmdsOf (serial MyReader tasks) =
      (tasks.filterMap Task.msg).map fun msg => (NsqCmd.fin msg.id).asCmd := by
  induction tasks using List.reverseRecOn with
  | nil => rfl
  | append_singleton tasks task ih =>
    rw [serial_concat, cmdsOf_concat, ih, List.filterMap_append, List.map_append]
    cases task with
    | onMsg i msg => rfl
    | onClose i => rfl
    | publish j => exact j.elim0

/-- `FIN` commands with different ids are different. -/
theorem fin_injective : Function.Injective fun id => (NsqCmd.fin id).asCmd := by
  intro id id' h
  have hline : "FIN" ++ " " ++ id = "FIN" ++ " " ++ id' := congrArg Cmd.cmd h
  have hlist := congrArg String.toList hline
  simp only [String.toList_append, List.append_cancel_left_eq] at hlist
  exact String.toList_injective hlist

theorem finIds_append (cmds cmds' : List NsqCmd) :
    finIds (cmds ++ cmds') = finIds cmds ++ finIds cmds' :=
  List.filterMap_append

/-- The requests of the client itself are no `FIN` commands. -/
theorem finIds_requests (reqs : List Request) :
    finIds (reqs.map (Request.cmd json client)) =
      finIds (reqs.filterMap Request.ofApplication) := by
  induction reqs with
  | nil => rfl
  | cons req reqs ih =>
    cases req with
    | handshake hs => cases hs <;> exact ih
    | heartbeat => exact ih
    | application cmd =>
      have hcons : ∀ cmds, finIds (cmd :: cmds) = finIds [cmd] ++ finIds cmds :=
        fun cmds => finIds_append [cmd] cmds
      exact (hcons _).trans ((congrArg _ ih).trans (hcons _).symm)

/-- Requests of the application that are `FIN` commands are known by their ids. -/
theorem map_fin_finIds {cmds : List NsqCmd} (h : ∀ cmd ∈ cmds, ∃ id, cmd = .fin id) :
    cmds = (finIds cmds).map .fin := by
  induction cmds with
  | nil => rfl
  | cons cmd cmds ih =>
    obtain ⟨id, rfl⟩ := h cmd List.mem_cons_self
    exact congrArg (List.cons _) (ih fun cmd hcmd => h cmd (List.mem_cons_of_mem _ hcmd))

/-! ## The messages -/

/-- The ids of the messages handed over are those of the message frames. -/
theorem ids_of_handed {x : Mutex Bool (Party n 0) × Crew n 0} {fs : List Frame} (h : Serving x)
    (hfs : EventLoop.Decoded fs x.2.loop) :
    x.2.handed.map Msg.id <+: frameIds fs ∧
      (¬ Stopped x.1 → x.2.queue = [] → x.2.handed.map Msg.id = frameIds fs) := by
  obtain ⟨hinit, hall⟩ := h.handed_eq hfs
  have hids : x.2.handed.map Msg.id = (x.2.handed.map parts).map fun fields => fields.2.2.1 := by
    rw [List.map_map]
    rfl
  have hframes : frameIds fs = ((messages fs).map msgFields).map fun fields => fields.2.2.1 := by
    rw [List.map_map]
    rfl
  rw [hids, hframes]
  exact ⟨hinit.map _, fun hrunning hqueue => by rw [hall hrunning hqueue]⟩

/-! ## Two runs -/

/-- If no read ends in the last bytes of a frame, what was handled are the messages of whole frames
that arrived. -/
theorem exists_handled {m : ℕ}
    {ok : (Mutex Bool (Party n m) × Crew n m) × List (Job n m) → Act n m → Prop}
    (hok : ∀ y a, ok y a → Along EventLoop.Uncut y.1 a) {alloc : Alloc} {clock : ℕ}
    {as : List (Act n m)} {x : Mutex Bool (Party n m) × Crew n m} {jobs : List (Job n m)}
    (hrun : JobRun json client ok alloc clock as x jobs) :
    ∃ fs rest, arrived x.2.loop.conn.log = wire fs ++ rest ∧ (∀ f ∈ fs, f.Honest) ∧
      (handledBy jobs).map parts <+: (messages fs).map msgFields := by
  have hkept := kept_run hrun
  have halong : Machine.Run (machine json client) (Along EventLoop.Uncut)
      (start n m client alloc clock) as x := hrun.forget hok
  obtain ⟨ls, hloop⟩ := loop_run_along halong
  obtain ⟨fs, hfs, hhonest⟩ := EventLoop.decoded_run_uncut (fun _ _ => id) hloop
  obtain ⟨rest, hunpacked, -⟩ := hfs.unpacked
  rw [hkept.handed]
  exact ⟨fs, rest, hunpacked.bytes, hhonest, (hkept.serving.handed_eq hfs).1⟩

/-- The messages of fewer frames are fewer messages. -/
theorem messages_mono {fs gs : List Frame} (h : fs <+: gs) : messages fs <+: messages gs := by
  obtain ⟨more, rfl⟩ := h
  rw [messages_append]
  exact List.prefix_append _ _

/-- Take two clients, with whatever configurations, numbers of workers, code and schedules, over the
plain stream or over TLS, and a run of each in which no read ends in the last four bytes of a frame
that it gets to; let one have received what the other received, and maybe more, cut into reads in
any other way.  Then what their consumers handled is the same, in the same order, as far as both
have come. -/
theorem handled_comparable {m n' m' : ℕ} {json' : Json} {client' : Client}
    {ok : (Mutex Bool (Party n m) × Crew n m) × List (Job n m) → Act n m → Prop}
    {ok' : (Mutex Bool (Party n' m') × Crew n' m') × List (Job n' m') → Act n' m' → Prop}
    (hok : ∀ y a, ok y a → Along EventLoop.Uncut y.1 a)
    (hok' : ∀ y a, ok' y a → Along EventLoop.Uncut y.1 a)
    {alloc alloc' : Alloc} {clock clock' : ℕ} {as : List (Act n m)} {as' : List (Act n' m')}
    {x : Mutex Bool (Party n m) × Crew n m} {x' : Mutex Bool (Party n' m') × Crew n' m'}
    {jobs : List (Job n m)} {jobs' : List (Job n' m')}
    (hrun : JobRun json client ok alloc clock as x jobs)
    (hrun' : JobRun json' client' ok' alloc' clock' as' x' jobs')
    (hbytes : arrived x.2.loop.conn.log <+: arrived x'.2.loop.conn.log) :
    (handledBy jobs).map parts <+: (handledBy jobs').map parts ∨
      (handledBy jobs').map parts <+: (handledBy jobs).map parts := by
  obtain ⟨fs, rest, hfs, hhonest, hinit⟩ := exists_handled hok hrun
  obtain ⟨gs, rest', hgs, hhonest', hinit'⟩ := exists_handled hok' hrun'
  obtain ⟨more, hmore⟩ := hbytes
  rw [hfs, hgs, List.append_assoc] at hmore
  rcases CodeStream.comparable Frame.wire_append_inj hhonest hhonest' hmore with hle | hle
  · exact List.prefix_or_prefix_of_prefix
      (hinit.trans ((messages_mono hle).map msgFields)) hinit'
  · exact List.prefix_or_prefix_of_prefix hinit
      (hinit'.trans ((messages_mono hle).map msgFields))

/-- Before a step of the loop nothing is beyond the end of the buffer to be read into. -/
def Tightly {m : ℕ} (x : Mutex Bool (Party n m) × Crew n m) (_ : Act n m) : Prop :=
  x.2.loop.conn.storage 1 = .heap 0

/-- Then no read ends in the last bytes of a frame that it gets to. -/
theorem Tightly.uncut {m : ℕ} {x : Mutex Bool (Party n m) × Crew n m} {a : Act n m}
    (h : Tightly x a) : Along EventLoop.Uncut x a := by
  rintro l - io - - f ⟨gs, rest, -, hparsed, -⟩
  exact hparsed.honest_of_tight h f (by simp)

instance {m : ℕ} (x : Mutex Bool (Party n m) × Crew n m) (a : Act n m) : Decidable (Tightly x a) :=
  inferInstanceAs (Decidable (_ = _))

/-- A message frame. -/
def oneMessage : List UInt8 :=
  [0, 0, 0, 31] ++ [0, 0, 0, 2] ++ EventLoop.message "0123456789abcdef" [65]

/-- After the handshake these reads, and then a consumer handles the message they bring. -/
def handlingReads {n m : ℕ} (i : Fin n) (reads : List (List UInt8)) : List (Act n m) :=
  (EventLoop.joining ++ EventLoop.writing ++ reads.flatMap EventLoop.reading).map .loop ++
    [.consumer i .next, .consumer i .next, .consumer i .next]

set_option maxRecDepth 4000 in
/-- A message in one read and the same message in two, of which the second covers it. -/
theorem handled_comparable_cut :
    ∃ jobs jobs' : List (Job 1 0),
      (∃ x, JobRun EventLoop.serde ⟨"t", "c", none, 1, .default none⟩ Machine.anything .exact 0
        (handlingReads 0 [oneMessage]) x jobs) ∧
      (∃ x, JobRun EventLoop.serde ⟨"t", "c", none, 1, .default none⟩ Machine.anything .exact 0
        (handlingReads 0 [oneMessage.take 4, oneMessage.drop 4]) x jobs') ∧
      (handledBy jobs).map Msg.id = ["0123456789abcdef"] ∧
      (handledBy jobs').map Msg.id = ["0123456789abcdef"] ∧
      ((handledBy jobs).map parts <+: (handledBy jobs').map parts ∨
        (handledBy jobs').map parts <+: (handledBy jobs).map parts) := by
  have hexec : Machine.exec (Machine.noting (machine EventLoop.serde
      ⟨"t", "c", none, 1, .default none⟩) note) (fun y a => Tightly y.1 a)
      (start 1 0 ⟨"t", "c", none, 1, .default none⟩ .exact 0, []) (handlingReads 0 [oneMessage]) =
      some _ := rfl
  have hexec' : Machine.exec (Machine.noting (machine EventLoop.serde
      ⟨"t", "c", none, 1, .default none⟩) note) (fun y a => Tightly y.1 a)
      (start 1 0 ⟨"t", "c", none, 1, .default none⟩ .exact 0, [])
      (handlingReads 0 [oneMessage.take 4, oneMessage.drop 4]) = some _ := rfl
  have hrun := Machine.Run.of_exec hexec
  have hrun' := Machine.Run.of_exec hexec'
  exact ⟨_, _, ⟨_, hrun.mono fun _ _ _ => trivial⟩, ⟨_, hrun'.mono fun _ _ _ => trivial⟩,
    by decide, by decide,
    handled_comparable (fun _ _ h => h.uncut) (fun _ _ h => h.uncut) hrun hrun' (by decide)⟩

/-! ## A single thread -/

/-- Without consumers nobody is in a call. -/
theorem not_busy {m : ℕ} (s : Crew 0 m) : ¬ Busy s := by
  rintro ⟨i, -⟩
  exact i.elim0

section Served

variable {m : ℕ} {code : Code n m}
  {ok : (Mutex Bool (Party n m) × Crew n m) × List (Job n m) → Act n m → Prop} {alloc : Alloc}
  {clock : ℕ} {as : List (Act n m)} {x : Mutex Bool (Party n m) × Crew n m} {jobs : List (Job n m)}

/-- The requests of a run of workers that run the code, if `P` holds of what they send. -/
theorem exists_served {P : NsqCmd → Prop} (hok : ∀ y a, ok y a → Runs code y a)
    (hrun : JobRun json client ok alloc clock as x jobs)
    (hrunning : ¬ EventLoop.Crashed x.2.loop) (hwhole : Whole x.2.loop.conn.log)
    (hwritten : (firstWrite x.2.loop.conn.log).isSome = true)
    (hscript : ∀ hs ∈ handshakes x.2.loop.conn.log, (hs.nsqCmd json client).Proper)
    (hP : ∀ c, P c → c.Proper)
    (hsent : ∀ cmd ∈ cmdsOf jobs, ∃ c : NsqCmd, P c ∧ c.asCmd = cmd) :
    ∃ reqs : List Request,
      serverReads (accepted x.2.loop.conn.log) = some (reqs.map (Request.cmd json client)) ∧
      reqs.filterMap Request.ofHandshake = handshakes x.2.loop.conn.log ∧
      (reqs.filterMap Request.ofApplication).map NsqCmd.asCmd ++ x.2.loop.conn.r <+:
        cmdsOf (serial code (jobs.map Job.task)) ∧
      cmdsOf (serial code (jobs.map Job.task).dropLast) <+:
        (reqs.filterMap Request.ofApplication).map NsqCmd.asCmd ++ x.2.loop.conn.r ∧
      (¬ Busy x.2 → (reqs.filterMap Request.ofApplication).map NsqCmd.asCmd ++ x.2.loop.conn.r =
        cmdsOf (serial code (jobs.map Job.task))) ∧
      ∀ c ∈ reqs.filterMap Request.ofApplication, P c := by
  obtain ⟨hkept, hserves⟩ := serves_run hok hrun
  obtain ⟨reqs, hreads, hhandshakes, happlication, hall⟩ :=
    EventLoop.exists_transcript (hkept.sent hrunning) hP hwhole hwritten hscript hsent
  obtain ⟨hinit, hdone, hidle⟩ := hserves.cmds
  rw [← happlication] at hinit hdone hidle
  exact ⟨reqs, hreads, hhandshakes, hinit, hdone, hidle, hall⟩

/-- Take any code of an application, and any run of any number of consumers and producers that run
it, in which the sockets take every write whole, that has written something and has not crashed; let
the commands of the handshake and those of the application be commands that the server can be
expected to read.  The server reads requests without a rest.  Those of the application, followed by
what is still in the command channel, are what a single thread sends that makes the same calls one
after the other: all of it, unless a consumer is in the last call, and then as far as that call has
come. -/
theorem served_serially (hok : ∀ y a, ok y a → Runs code y a)
    (hrun : JobRun json client ok alloc clock as x jobs)
    (hrunning : ¬ EventLoop.Crashed x.2.loop) (hwhole : Whole x.2.loop.conn.log)
    (hwritten : (firstWrite x.2.loop.conn.log).isSome = true)
    (hscript : ∀ hs ∈ handshakes x.2.loop.conn.log, (hs.nsqCmd json client).Proper)
    (hsent : ∀ cmd ∈ cmdsOf jobs, ∃ c : NsqCmd, c.Proper ∧ c.asCmd = cmd) :
    ∃ reqs : List Request,
      serverReads (accepted x.2.loop.conn.log) = some (reqs.map (Request.cmd json client)) ∧
      reqs.filterMap Request.ofHandshake = handshakes x.2.loop.conn.log ∧
      (reqs.filterMap Request.ofApplication).map NsqCmd.asCmd ++ x.2.loop.conn.r <+:
        cmdsOf (serial code (jobs.map Job.task)) ∧
      cmdsOf (serial code (jobs.map Job.task).dropLast) <+:
        (reqs.filterMap Request.ofApplication).map NsqCmd.asCmd ++ x.2.loop.conn.r ∧
      (¬ Busy x.2 → (reqs.filterMap Request.ofApplication).map NsqCmd.asCmd ++ x.2.loop.conn.r =
        cmdsOf (serial code (jobs.map Job.task))) := by
  obtain ⟨reqs, hreads, hhandshakes, hinit, hdone, hidle, -⟩ :=
    exists_served hok hrun hrunning hwhole hwritten hscript (fun _ => id) hsent
  exact ⟨reqs, hreads, hhandshakes, hinit, hdone, hidle⟩

end Served

set_option maxRecDepth 4000 in
/-- After the handshake a consumer answers a message and a producer publishes, and the sockets take
the commands whole. -/
theorem served_serially_two :
    ∃ (x : Mutex Bool (Party 1 1) × Crew 1 1) (tasks : List (Task 1 1)) (reqs : List Request),
      handshakes x.2.loop.conn.log = [.identify, .subscribe, .rdy] ∧
      serverReads (accepted x.2.loop.conn.log) =
        some (reqs.map (Request.cmd EventLoop.serde ⟨"t", "c", none, 1, .default none⟩)) ∧
      (reqs.filterMap Request.ofApplication).map NsqCmd.asCmd ++ x.2.loop.conn.r =
        cmdsOf (serial answering tasks) ∧ tasks.length = 2 ∧ x.2.loop.conn.r = [] := by
  have hexec : Machine.exec (Machine.noting (machine EventLoop.serde
      ⟨"t", "c", none, 1, .default none⟩) note) (Runs answering)
      (start 1 1 ⟨"t", "c", none, 1, .default none⟩ .exact 0, [])
      (twoJobs 0 0 ++ [.producer 0 .next, .producer 0 .next, .waker, .waker, .waker, .waker, .waker,
        .loop (.poll [⟨.client, .writable⟩] 0),
        .loop (.event ⟨.ok [], fun _ => .ok 1000, true⟩)]) = some _ := rfl
  have hscript := Handshake.proper EventLoop.serde
    ⟨"t", "c", none, 1, .default none⟩ ⟨by decide, by decide, by decide⟩
    ⟨by decide, by decide, by decide⟩ (by decide) (by decide)
  obtain ⟨reqs, hreads, -, -, -, hidle⟩ := served_serially (fun _ _ h => h)
    (Machine.Run.of_exec hexec) (EventLoop.not_crashed_of_plain rfl) (by decide) rfl
    (fun hs _ => hscript hs) (by
      intro cmd hcmd
      have hcmd : cmd ∈ [(NsqCmd.fin "0123456789abcdef").asCmd, (NsqCmd.pub "t" [66]).asCmd] := hcmd
      rcases List.mem_pair.mp hcmd with rfl | rfl
      · exact ⟨.fin "0123456789abcdef", ⟨by decide, by decide, by decide⟩, rfl⟩
      · exact ⟨.pub "t" [66], ⟨⟨by decide, by decide, by decide⟩, by decide⟩, rfl⟩)
  refine ⟨_, _, reqs, by decide, hreads, hidle ?_, by decide, by decide⟩
  rintro ⟨i, hi⟩
  rw [Subsingleton.elim i 0] at hi
  exact absurd hi (by decide)

/-! ## Batches -/

/-- A single thread sends the same batch again and again. -/
theorem cmdsOf_serial_MyProducer {m : ℕ} (tasks : List (Task 0 m)) :
    cmdsOf (serial MyProducer tasks) =
      List.replicate tasks.length (NsqCmd.mpub "test" batch).asCmd := by
  induction tasks using List.reverseRecOn with
  | nil => rfl
  | append_singleton tasks task ih =>
    rw [serial_concat, cmdsOf_concat, ih, List.length_append, List.replicate_add]
    cases task with
    | onMsg i msg => exact i.elim0
    | onClose i => exact i.elim0
    | publish j => rfl

/-- The server can be expected to read the batch. -/
theorem proper_batch : (NsqCmd.mpub "test" batch).Proper :=
  ⟨⟨by decide, by decide, by decide⟩, by decide, by decide +kernel⟩

/-- Take a client with any number of producers that run `MyProducer`, and any run of it in which the
sockets take every write whole, that has written something and has not crashed; let the commands of
the handshake be commands that the server can be expected to read.  The server reads requests
without a rest.  Those of the application are whole batches, as many as there were calls of
`publish` whose command was taken from the command channel. -/
theorem published_whole {m : ℕ}
    {ok : (Mutex Bool (Party 0 m) × Crew 0 m) × List (Job 0 m) → Act 0 m → Prop}
    (hok : ∀ y a, ok y a → Runs MyProducer y a) {alloc : Alloc} {clock : ℕ} {as : List (Act 0 m)}
    {x : Mutex Bool (Party 0 m) × Crew 0 m} {jobs : List (Job 0 m)}
    (hrun : JobRun json client ok alloc clock as x jobs)
    (hrunning : ¬ EventLoop.Crashed x.2.loop) (hwhole : Whole x.2.loop.conn.log)
    (hwritten : (firstWrite x.2.loop.conn.log).isSome = true)
    (hscript : ∀ hs ∈ handshakes x.2.loop.conn.log, (hs.nsqCmd json client).Proper) :
    ∃ (reqs : List Request) (k : ℕ),
      serverReads (accepted x.2.loop.conn.log) = some (reqs.map (Request.cmd json client)) ∧
      reqs.filterMap Request.ofApplication = List.replicate k (.mpub "test" batch) ∧
      k + x.2.loop.conn.r.length = jobs.length := by
  obtain ⟨-, hserves⟩ := serves_run hok hrun
  have hjobs := hserves.cmds.2.2 (not_busy x.2)
  rw [cmdsOf_serial_MyProducer] at hjobs
  obtain ⟨reqs, hreads, -, -, -, hidle, hall⟩ := exists_served
    (P := fun c => c = .mpub "test" batch) hok hrun hrunning hwhole hwritten hscript
    (by
      rintro cmd rfl
      exact proper_batch)
    (by
      intro cmd hcmd
      rw [hjobs] at hcmd
      exact ⟨_, rfl, (List.eq_of_mem_replicate hcmd).symm⟩)
  refine ⟨reqs, _, hreads, List.eq_replicate_iff.mpr ⟨rfl, hall⟩, ?_⟩
  have hlength := congrArg List.length (hidle (not_busy x.2))
  rw [cmdsOf_serial_MyProducer] at hlength
  simpa using hlength

set_option maxRecDepth 4000 in
/-- After the handshake a producer publishes a batch, and the socket takes it whole. -/
theorem published_whole_one :
    ∃ (x : Mutex Bool (Party 0 1) × Crew 0 1) (reqs : List Request),
      serverReads (accepted x.2.loop.conn.log) =
        some (reqs.map (Request.cmd EventLoop.serde ⟨"t", "c", none, 1, .default none⟩)) ∧
      reqs.filterMap Request.ofApplication = [.mpub "test" batch] := by
  have hsome : (Machine.exec (Machine.noting (machine (n := 0) (m := 1) EventLoop.serde
      ⟨"t", "c", none, 1, .default none⟩) note) (Runs MyProducer)
      (start 0 1 ⟨"t", "c", none, 1, .default none⟩ .exact 0, [])
      (EventLoop.joining.map .loop ++ [.producer 0 .next, .producer 0 .next,
        .producer 0 (.send (NsqCmd.mpub "test" batch).asCmd), .producer 0 .next, .waker, .waker,
        .loop (.poll [⟨.client, .writable⟩] 0),
        .loop (.event ⟨.ok [], fun _ => .ok 2000, true⟩)])).map (fun y => decide
          (y.1.2.loop.phase = .plain [] ∧ Whole y.1.2.loop.conn.log ∧
            (firstWrite y.1.2.loop.conn.log).isSome = true ∧ y.1.2.loop.conn.r.length = 0 ∧
            y.2.length = 1)) = some true := by decide +kernel
  obtain ⟨⟨x, jobs⟩, hexec, hend⟩ := Option.map_eq_some_iff.mp hsome
  obtain ⟨hphase, hwhole, hwritten, hempty, hjobs⟩ := of_decide_eq_true hend
  have hscript := Handshake.proper EventLoop.serde
    ⟨"t", "c", none, 1, .default none⟩ ⟨by decide, by decide, by decide⟩
    ⟨by decide, by decide, by decide⟩ (by decide) (by decide)
  obtain ⟨reqs, k, hreads, hbatches, hk⟩ := published_whole (fun _ _ h => h)
    (Machine.Run.of_exec hexec) (EventLoop.not_crashed_of_plain hphase) hwhole hwritten
    fun hs _ => hscript hs
  obtain rfl : k = 1 := by
    simp only at hempty hjobs
    omega
  exact ⟨x, reqs, hreads, hbatches⟩

/-! ## Exactly once -/

/-- Take a client with any number of consumers that run `MyReader`, and any run of it in which the
sockets take every write whole, that has written something and has not crashed; let the commands of
the handshake be commands that the server can be expected to read, and the ids of the messages
handled be names.  `decode` took frames off what arrived, and the rest is in the read buffer.
What the sockets accepted is read back by the server as commands without a rest, and the ids in its
`FIN` commands are those of the message frames taken, in order and each once, up to some frame.
They are those of all message frames taken, if the workers are not stopped, both channels are empty,
and no consumer is in a call. -/
theorem finished_exactly_once
    {ok : (Mutex Bool (Party n 0) × Crew n 0) × List (Job n 0) → Act n 0 → Prop}
    (hok : ∀ y a, ok y a → Runs MyReader y a) {alloc : Alloc} {clock : ℕ} {as : List (Act n 0)}
    {x : Mutex Bool (Party n 0) × Crew n 0} {jobs : List (Job n 0)}
    (hrun : JobRun json client ok alloc clock as x jobs)
    (hrunning : ¬ EventLoop.Crashed x.2.loop) (hwhole : Whole x.2.loop.conn.log)
    (hwritten : (firstWrite x.2.loop.conn.log).isSome = true)
    (hscript : ∀ hs ∈ handshakes x.2.loop.conn.log, (hs.nsqCmd json client).Proper)
    (hnames : ∀ msg ∈ handledBy jobs, NsqCmd.ValidName msg.id) :
    ∃ fs cmds, Unpacked (reads x.2.loop.conn.log) fs x.2.loop.conn.rBuf ∧
      (∀ f ∈ fs, (f.Honest ∨ f.Cut) ∧ f.Readable) ∧
      serverReads (accepted x.2.loop.conn.log) = some cmds ∧
      finIds cmds <+: frameIds fs ∧
      (¬ Stopped x.1 → x.2.queue = [] → ¬ Busy x.2 → x.2.loop.conn.r = [] →
        finIds cmds = frameIds fs) := by
  obtain ⟨hkept, hserves⟩ := serves_run hok hrun
  obtain ⟨-, fs, hfs⟩ := serving_run (hrun.forget fun _ _ _ => trivial)
  obtain ⟨rest, hunpacked, hrest⟩ := hfs.unpacked
  obtain ⟨hids, hallIds⟩ := ids_of_handed hkept.serving hfs
  rw [hrest hrunning] at hunpacked
  -- what the consumers send are `FIN` commands for the messages handed over
  have hserial : cmdsOf (serial MyReader (jobs.map Job.task)) =
      (x.2.handed.map Msg.id).map fun id => (NsqCmd.fin id).asCmd := by
    rw [cmdsOf_serial_MyReader, List.filterMap_map, ← hkept.handed, List.map_map]
    rfl
  have hfin : ∀ cmd ∈ cmdsOf jobs,
      ∃ c : NsqCmd, (∃ id, c = .fin id ∧ NsqCmd.ValidName id) ∧ c.asCmd = cmd := by
    intro cmd hcmd
    have hcmd := hserves.cmds.1.subset hcmd
    rw [hserial, ← hkept.handed] at hcmd
    obtain ⟨id, hid, rfl⟩ := List.mem_map.mp hcmd
    obtain ⟨msg, hmsg, rfl⟩ := List.mem_map.mp hid
    exact ⟨.fin msg.id, ⟨msg.id, rfl, hnames msg hmsg⟩, rfl⟩
  obtain ⟨reqs, hreads, -, hinit, -, hidle, hall⟩ := exists_served hok hrun hrunning hwhole
    hwritten hscript (by rintro cmd ⟨id, rfl, hid⟩; exact hid) hfin
  have happlication : (reqs.filterMap Request.ofApplication).map NsqCmd.asCmd =
      (finIds (reqs.filterMap Request.ofApplication)).map fun id => (NsqCmd.fin id).asCmd := by
    have hfins := map_fin_finIds fun cmd hcmd => by
      obtain ⟨id, hid, -⟩ := hall cmd hcmd
      exact ⟨id, hid⟩
    conv_lhs => rw [hfins, List.map_map]
    rfl
  rw [happlication, hserial] at hinit hidle
  refine ⟨fs, _, hunpacked, fun f hf => ⟨hunpacked.honest_or_cut f hf, hfs.readable f hf⟩, hreads,
    ?_, ?_⟩
  · rw [finIds_requests]
    refine List.IsPrefix.trans ((List.prefix_map_iff_of_injective fin_injective).mp ?_) hids
    exact (List.prefix_append _ _).trans hinit
  · intro hgoing hqueue hnot hempty
    rw [finIds_requests, ← hallIds hgoing hqueue]
    apply List.map_injective_iff.mpr fin_injective
    rw [← hidle hnot, hempty, List.append_nil]

set_option maxRecDepth 4000 in
/-- A message and the `FIN` for it, both taken whole by the sockets. -/
theorem finished_exactly_once_one :
    ∃ (x : Mutex Bool (Party 1 0) × Crew 1 0) (fs : List Frame) (cmds : List NsqCmd),
      x.2.handed.map Msg.id = ["0123456789abcdef"] ∧
      serverReads (accepted x.2.loop.conn.log) = some cmds ∧ finIds cmds = frameIds fs := by
  have hexec : Machine.exec (Machine.noting (machine EventLoop.serde
      ⟨"t", "c", none, 1, .default none⟩) note) (Runs MyReader)
      (start 1 0 ⟨"t", "c", none, 1, .default none⟩ .exact 0, [])
      (handlingReads 0 [(Frame.ofPayload 2 (EventLoop.message "0123456789abcdef" [65])).wire] ++
        [.consumer 0 (.send (NsqCmd.fin "0123456789abcdef").asCmd), .consumer 0 .next,
          .consumer 0 .next, .waker, .waker, .loop (.poll [⟨.client, .writable⟩] 0),
          .loop (.event ⟨.ok [], fun _ => .ok 1000, true⟩)]) = some _ := rfl
  have hscript := Handshake.proper EventLoop.serde
    ⟨"t", "c", none, 1, .default none⟩ ⟨by decide, by decide, by decide⟩
    ⟨by decide, by decide, by decide⟩ (by decide) (by decide)
  obtain ⟨fs, cmds, -, -, hreads, -, hall⟩ := finished_exactly_once (fun _ _ h => h)
    (Machine.Run.of_exec hexec) (EventLoop.not_crashed_of_plain rfl) (by decide) rfl
    (fun hs _ => hscript hs) (by
      intro msg hmsg
      have hid := List.mem_map_of_mem (f := Msg.id) hmsg
      rw [show List.map Msg.id _ = ["0123456789abcdef"] by decide] at hid
      rw [List.mem_singleton.mp hid]
      exact ⟨by decide, by decide, by decide⟩)
  have hidle : ∀ s : Crew 1 0, s.consumers 0 = .unlock → ¬ Busy s := by
    rintro s hs ⟨i, hi⟩
    rw [Subsingleton.elim i 0, hs] at hi
    cases hi
  refine ⟨_, fs, cmds, by decide, hreads, hall ?_ (by decide) (hidle _ rfl) (by decide)⟩
  rintro (hvalue | hpoisoned)
  · cases hvalue
  · cases hpoisoned

end Threads

end NsqClient
