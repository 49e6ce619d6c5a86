import NsqClient.Delivery
import NsqClient.Lib.Monitor
import NsqClient.Workers

set_option relaxedAutoImplicit false
set_option autoImplicit false

/-!
# The jobs of the workers

A call of `on_msg`, `on_close` or `publish` is a job.  A worker sends commands while it is at a
job, and the client keeps no account of which command belongs to which job; so the jobs are noted
beside a run, each with the commands that its worker sent since it began.

A worker holds the lock while it is at a job.  So the jobs come one after the other, however the
threads interleave, and the command channel gets the commands of one job after those of the job
before.

## Main definitions

* `NsqClient.Threads.Job` — a job and the commands sent there.
* `NsqClient.Threads.note` — how the jobs are noted.
* `NsqClient.Threads.Kept` — what the jobs noted have to do with the state.

## Main results

* `NsqClient.Threads.kept_step` — every step keeps it.
* `NsqClient.Threads.inbound_exactly_once` — the calls of `on_msg` are the message frames on the
  socket.
* `NsqClient.Threads.jobs_atomic` — the commands of the jobs are not mixed.
-/

namespace NsqClient

namespace Threads

open Mutex (Place)

variable {n m : ℕ} {json : Json} {client : Client}

/-! ## Jobs -/

/-- A call of the code of the application. -/
inductive Task (n m : ℕ) where
  | onMsg (i : Fin n) (msg : Msg)
  | onClose (i : Fin n)
  | publish (j : Fin m)

/-- A call, and the commands sent there. -/
structure Job (n m : ℕ) where
  task : Task n m
  cmds : List Cmd

/-- The thread in which a call is made. -/
def Task.party : Task n m → Party n m
  | onMsg i _ => .consumer i
  | onClose i => .consumer i
  | publish j => .producer j

/-- The message of a call of `on_msg`. -/
def Task.msg : Task n m → Option Msg
  | onMsg _ msg => some msg
  | _ => none

/-- A thread sends a command: it belongs to the last job of this thread. -/
def credit (p : Party n m) (cmd : Cmd) : List (Job n m) → List (Job n m)
  | [] => []
  | job :: jobs =>
    if job.task.party = p ∧ ∀ job' ∈ jobs, job'.task.party ≠ p then
      { job with cmds := job.cmds ++ [cmd] } :: jobs
    else job :: credit p cmd jobs

/-- The jobs after a step: a call of `on_msg` or `on_close` begins when its message is received, and
a call of `publish` returns the command that is sent. -/
def note (x : Mutex Bool (Party n m) × Crew n m) (a : Act n m) (jobs : List (Job n m)) :
    List (Job n m) :=
  match a with
  | .consumer i .next =>
    match x.2.consumers i, x.2.queue with
    | .inside .recv, msg :: _ =>
      if msg.bytes = [] then jobs ++ [⟨.onClose i, []⟩]
      else
        match Dispatch.consumerMsg msg with
        | .error _ => jobs
        | .ok msg => jobs ++ [⟨.onMsg i msg, []⟩]
    | _, _ => jobs
  | .consumer i (.send cmd) => credit (.consumer i) cmd jobs
  | .producer j (.send cmd) => jobs ++ [⟨.publish j, [cmd]⟩]
  | _ => jobs

/-- The messages handled, in order. -/
def handledBy (jobs : List (Job n m)) : List Msg := jobs.filterMap fun job => job.task.msg

/-- The commands of the jobs, one job after the other. -/
def cmdsOf (jobs : List (Job n m)) : List Cmd := jobs.flatMap Job.cmds

/-- A run of a client alone in the process, with its jobs. -/
abbrev JobRun (json : Json) (client : Client)
    (ok : (Mutex Bool (Party n m) × Crew n m) × List (Job n m) → Act n m → Prop)
    (alloc : Alloc) (clock : ℕ) (as : List (Act n m))
    (x : Mutex Bool (Party n m) × Crew n m) (jobs : List (Job n m)) : Prop :=
  Machine.Run (Machine.noting (machine json client) note) ok
    (start n m client alloc clock, []) as (x, jobs)

/-- What the thread of the last job sends belongs to that job. -/
theorem credit_concat {p : Party n m} {job : Job n m} (hjob : job.task.party = p) (cmd : Cmd)
    (jobs : List (Job n m)) : credit p cmd (jobs ++ [job]) =
      jobs ++ [{ job with cmds := job.cmds ++ [cmd] }] := by
  induction jobs with
  | nil => simp [credit, hjob]
  | cons job' jobs ih =>
    have hlast : ¬ ∀ job'' ∈ jobs ++ [job], job''.task.party ≠ p :=
      fun h => h job (by simp) hjob
    rw [List.cons_append, credit, if_neg (fun h => hlast h.2), ih, List.cons_append]

/-- What a thread sends changes no call. -/
theorem map_task_credit (p : Party n m) (cmd : Cmd) (jobs : List (Job n m)) :
    (credit p cmd jobs).map Job.task = jobs.map Job.task := by
  induction jobs with
  | nil => rfl
  | cons job jobs ih =>
    rw [credit]
    split_ifs with hlast
    · rfl
    · exact congrArg (List.cons _) ih

/-- A consumer begins a call only with a message. -/
theorem note_next {x : Mutex Bool (Party n m) × Crew n m} {i : Fin n}
    (hi : x.2.consumers i ≠ .inside .recv) (jobs : List (Job n m)) :
    note x (.consumer i .next) jobs = jobs := by
  cases hx : x.2.consumers i with
  | inside b =>
    cases b with
    | recv => exact absurd hx hi
    | _ => simp [note, hx]
  | _ => simp [note, hx]

section Received

variable {x : Mutex Bool (Party n m) × Crew n m} {i : Fin n} {msg : BytesMsg}
  {queue : List BytesMsg} (hx : x.2.consumers i = .inside .recv) (hqueue : x.2.queue = msg :: queue)
  (jobs : List (Job n m))

include hx hqueue

/-- The message that closes begins a call of `on_close`. -/
theorem note_closed (hnil : msg.bytes = []) :
    note x (.consumer i .next) jobs = jobs ++ [⟨.onClose i, []⟩] := by
  simp [note, hx, hqueue, hnil]

/-- A message that is too short begins no call. -/
theorem note_short {p : Panic} (hne : msg.bytes ≠ [])
    (hmsg : Dispatch.consumerMsg msg = .error p) :
    note x (.consumer i .next) jobs = jobs := by
  simp [note, hx, hqueue, hne, hmsg]

/-- Another message begins a call of `on_msg`. -/
theorem note_message {y : Msg} (hne : msg.bytes ≠ []) (hmsg : Dispatch.consumerMsg msg = .ok y) :
    note x (.consumer i .next) jobs = jobs ++ [⟨.onMsg i y, []⟩] := by
  simp [note, hx, hqueue, hne, hmsg]

end Received

theorem cmdsOf_concat (jobs : List (Job n m)) (job : Job n m) :
    cmdsOf (jobs ++ [job]) = cmdsOf jobs ++ job.cmds := by
  simp [cmdsOf]

theorem handledBy_concat (jobs : List (Job n m)) (job : Job n m) :
    handledBy (jobs ++ [job]) = handledBy jobs ++ job.task.msg.toList := by
  rw [handledBy, List.filterMap_append]
  cases hmsg : job.task.msg <;> simp [handledBy, hmsg]

/-! ## The jobs and the state -/

/-- The call that a consumer is in. -/
def InCall (i : Fin n) : Consuming → Task n m → Prop
  | .recv, _ => False
  | .handler closing, task => if closing then task = .onClose i else ∃ msg, task = .onMsg i msg
  | .sentinel closing, task => if closing then task = .onClose i else ∃ msg, task = .onMsg i msg

/-- A call that a consumer is in is made in its thread. -/
theorem InCall.party {i : Fin n} {b : Consuming} {task : Task n m} (h : InCall i b task) :
    task.party = .consumer i := by
  cases b with
  | recv => exact h.elim
  | _ closing =>
    cases closing with
    | true =>
      obtain rfl : task = .onClose i := h
      rfl
    | false =>
      obtain ⟨msg, rfl⟩ : ∃ msg, task = .onMsg i msg := h
      rfl

/-- The jobs noted so far: their messages were handed over, a consumer in a handler is at the last
of them, and their commands are in the channel or were taken from it. -/
structure Kept (json : Json) (client : Client) (x : Mutex Bool (Party n m) × Crew n m)
    (jobs : List (Job n m)) : Prop where
  serving : Serving x
  handed : handledBy jobs = x.2.handed
  last : ∀ i b, x.2.consumers i = .inside b → b ≠ .recv →
    ∃ jobs' job, jobs = jobs' ++ [job] ∧ InCall i b job.task
  sent : ¬ EventLoop.Crashed x.2.loop → EventLoop.Delivered json client (cmdsOf jobs) x.2.loop

section Kept

variable {x x' : Mutex Bool (Party n m) × Crew n m} {jobs : List (Job n m)}

/-- Where a step that concerns the lock begins and ends: outside, or at the receiving end. -/
theorem not_inside_of_advanced {α β : Type} {enter again y y' : Place α β} {p : Party n m}
    {lock lock' : Mutex Bool (Party n m)} (h : Place.Advanced enter again p lock y lock' y')
    (b : β) : y ≠ .inside b := by
  cases h <;> exact nofun

/-- The commands sent in a step of the loop of a crew. -/
theorem delivered_of_loop {cmds : List Cmd} {a : Act n m}
    (h : EventLoop.Delivered json client cmds x.2.loop)
    (hstep : machine json client x a = some x') (hnot : ∀ i cmd, a ≠ .consumer i (.send cmd))
    (hnot' : ∀ j cmd, a ≠ .producer j (.send cmd)) (hrunning : ¬ EventLoop.Crashed x'.2.loop) :
    EventLoop.Delivered json client cmds x'.2.loop := by
  have hquiet : ∀ {l : EventLoop.Label}, (∀ cmd, l ≠ .send cmd) →
      EventLoop.step json client x.2.loop l = some x'.2.loop →
      EventLoop.Delivered json client cmds x'.2.loop := by
    intro l hl hloop
    have hnone : EventLoop.sends [l] = [] := by
      cases l with
      | send cmd => exact absurd rfl (hl cmd)
      | _ => rfl
    have hsent := EventLoop.carries_step h hloop hrunning
    rwa [hnone, List.append_nil] at hsent
  cases a with
  | loop l =>
    obtain ⟨s, hloop, heq⟩ := Option.map_eq_some_iff.mp hstep
    cases heq
    exact hquiet (loop_step hloop).inner.1 (loop_step hloop).step
  | tell msg =>
    cases tell_step hstep
    exact h
  | hangUp =>
    cases hstep
    exact h
  | consumer i what =>
    obtain ⟨lock', s'⟩ := x'
    cases consumer_step hstep with
    | sends _ => exact absurd rfl (hnot i _)
    | _ => exact h
  | producer j what =>
    obtain ⟨lock', s'⟩ := x'
    cases producer_step hstep with
    | publish _ => exact absurd rfl (hnot' j _)
    | _ => exact h
  | waker =>
    obtain ⟨lock', s'⟩ := x'
    cases waker_step hstep <;> exact h
  | control =>
    obtain ⟨lock', s'⟩ := x'
    cases control_step hstep with
    | send _ => exact hquiet (l := .close) nofun rfl
    | _ => exact h

/-- A step without a new job, in which no worker sends a command. -/
theorem Kept.keep {a : Act n m} (h : Kept json client x jobs)
    (hstep : machine json client x a = some x') (hnot : ∀ i cmd, a ≠ .consumer i (.send cmd))
    (hnot' : ∀ j cmd, a ≠ .producer j (.send cmd)) (hhanded : x'.2.handed = x.2.handed)
    (hlast : ∀ i b, x'.2.consumers i = .inside b → b ≠ .recv →
      ∃ b', x.2.consumers i = .inside b' ∧ b' ≠ .recv ∧ ∀ task, InCall (m := m) i b' task →
        InCall i b task) : Kept json client x' jobs := by
  refine ⟨serving_step h.serving hstep, h.handed.trans hhanded.symm, ?_, fun hrunning => ?_⟩
  · intro i b hi hb
    obtain ⟨b', hi', hb', hat⟩ := hlast i b hi hb
    obtain ⟨jobs', job, hjobs, hjob⟩ := h.last i b' hi' hb'
    exact ⟨jobs', job, hjobs, hat _ hjob⟩
  · refine delivered_of_loop (h.sent fun hcrashed => hrunning ?_) hstep hnot hnot' hrunning
    exact loop_invariant (fun r l r' hr hl => EventLoop.crashed_of_step hr hl) hcrashed hstep

/-- A command sent at the last job. -/
theorem delivered_push (cmd : Cmd) (h : EventLoop.Delivered json client (cmdsOf jobs) x.2.loop) :
    EventLoop.Delivered json client (cmdsOf jobs ++ [cmd]) (x.2.push cmd).loop := by
  refine ⟨h.config, ⟨h.carries.framed, h.carries.wBuf, h.carries.pending⟩, ?_⟩
  rw [← h.sent, List.append_assoc]
  rfl

/-- A job begins: its consumer is the only one inside the lock. -/
theorem Kept.begins {lock : Mutex Bool (Party n m)} {s : Crew n m} {i : Fin n} {b : Consuming}
    {job : Job n m} (h : Kept json client x jobs) (hx : x.2.consumers i = .inside .recv)
    (hserving : Serving (lock, s.setConsumer i (.inside b)))
    (hconsumers : s.consumers = x.2.consumers) (hloop : s.loop = x.2.loop) (hcmds : job.cmds = [])
    (hjob : InCall i b job.task)
    (hhanded : (s.setConsumer i (.inside b)).handed = x.2.handed ++ job.task.msg.toList) :
    Kept json client (lock, s.setConsumer i (.inside b)) (jobs ++ [job]) := by
  refine ⟨hserving, ?_, ?_, ?_⟩
  · rw [handledBy_concat, h.handed, hhanded]
  · intro j b' hj _
    by_cases hji : j = i
    · subst hji
      obtain rfl : b = b' := by simpa [Crew.setConsumer] using hj
      exact ⟨jobs, job, rfl, hjob⟩
    · have hj : x.2.consumers j = .inside b' := by
        simpa [Crew.setConsumer, hji, hconsumers] using hj
      exact absurd ((h.serving.placed.alone hx).1 j b' hj) hji
  · intro hrunning
    simp only [Crew.setConsumer, hloop] at hrunning ⊢
    rw [cmdsOf_concat, hcmds, List.append_nil]
    exact h.sent hrunning

/-- Where a consumer that does not begin a job moves, every consumer that is in a call was in that
call before. -/
theorem same_call {s : Crew n m} {i : Fin n} {y : Place Empty Consuming}
    (hconsumers : s.consumers = x.2.consumers)
    (hy : ∀ b, y = .inside b → b ≠ .recv → ∃ b', x.2.consumers i = .inside b' ∧ b' ≠ .recv ∧
      ∀ task, InCall (m := m) i b' task → InCall i b task) :
    ∀ j b, (s.setConsumer i y).consumers j = .inside b → b ≠ .recv →
      ∃ b', x.2.consumers j = .inside b' ∧ b' ≠ .recv ∧
        ∀ task, InCall (m := m) j b' task → InCall j b task := by
  intro j b hj hb
  by_cases hji : j = i
  · subst hji
    exact hy b (by simpa [Crew.setConsumer] using hj) hb
  · have hj : x.2.consumers j = .inside b := by
      simpa [Crew.setConsumer, hji, hconsumers] using hj
    exact ⟨b, hj, hb, fun _ => id⟩

/-- A handler sends a command: it goes to the last job, since the consumer is in that call. -/
theorem Kept.sends {lock' : Mutex Bool (Party n m)} {i : Fin n} {closing : Bool} {cmd : Cmd}
    (h : Kept json client x jobs) (hx : x.2.consumers i = .inside (.handler closing))
    (hserving : Serving (lock', (x.2.push cmd).setConsumer i (.inside (.sentinel closing)))) :
    Kept json client (lock', (x.2.push cmd).setConsumer i (.inside (.sentinel closing)))
      (note x (.consumer i (.send cmd)) jobs) := by
  obtain ⟨jobs', job, rfl, hjob⟩ := h.last i _ hx (by simp)
  have hnote : note x (.consumer i (.send cmd)) (jobs' ++ [job]) =
      jobs' ++ [{ job with cmds := job.cmds ++ [cmd] }] :=
    credit_concat hjob.party cmd jobs'
  rw [hnote]
  refine ⟨hserving, ?_, ?_, ?_⟩
  · have hhanded := h.handed
    rw [handledBy_concat] at hhanded ⊢
    exact hhanded
  · intro j b hj hb
    obtain ⟨b', hj', hb', hat⟩ := same_call (s := x.2.push cmd) rfl (by
      rintro b ⟨⟩ -
      exact ⟨_, hx, by simp, fun _ => id⟩) j b hj hb
    obtain ⟨jobs₁, job₁, hjobs, hjob₁⟩ := h.last j b' hj' hb'
    obtain ⟨rfl, hlast⟩ := List.append_inj' hjobs rfl
    cases hlast
    exact ⟨_, _, rfl, hat _ hjob₁⟩
  · intro hrunning
    have hsent := delivered_push cmd (h.sent hrunning)
    rw [cmdsOf_concat, List.append_assoc] at hsent
    rw [cmdsOf_concat]
    exact hsent

/-- A consumer takes a step.

**Proof sketch.** A message for the handler, and the message that closes, begin a job; no other
consumer is inside the lock then.  A command goes to the last job, and the other steps leave every
consumer in the call it is in. -/
theorem Kept.consumer {lock' : Mutex Bool (Party n m)} {s' : Crew n m} {i : Fin n} {what : Do}
    (h : Kept json client x jobs)
    (hstep : machine json client x (.consumer i what) = some (lock', s')) :
    Kept json client (lock', s') (note x (.consumer i what) jobs) := by
  have hserving := serving_step h.serving hstep
  cases consumer_step hstep with
  | closed hx hqueue hnil =>
    rw [note_closed hx hqueue jobs hnil]
    refine h.begins hx hserving rfl rfl rfl rfl ?_
    simp [Crew.handed, Crew.setConsumer, toHandler, hnil, Task.msg]
  | short hx hqueue hne hmsg =>
    rw [note_short hx hqueue jobs hne hmsg]
    refine h.keep hstep (by simp) (by simp) ?_ (same_call rfl (by simp))
    simp [Crew.handed, Crew.setConsumer, toHandler, hne, hmsg, Except.toOption]
  | @message msg queue y hx hqueue hne hmsg =>
    rw [note_message hx hqueue jobs hne hmsg]
    refine h.begins hx hserving rfl rfl rfl ⟨y, rfl⟩ ?_
    simp [Crew.handed, Crew.setConsumer, toHandler, hne, hmsg, Except.toOption, Task.msg]
  | @returned closing hx =>
    rw [note_next (by simp [hx])]
    refine h.keep hstep (by simp) (by simp) rfl (same_call rfl ?_)
    cases closing <;> simp
  | sends hx => exact h.sends hx hserving
  | @sentinel closing hx =>
    rw [note_next (by simp [hx])]
    refine h.keep hstep (by simp) (by simp) rfl (same_call rfl ?_)
    rintro b ⟨⟩ -
    exact ⟨_, hx, by simp, fun _ => id⟩
  | lock hadvance =>
    rw [note_next (not_inside_of_advanced hadvance _)]
    refine h.keep hstep (by simp) (by simp) rfl (same_call rfl ?_)
    rintro b rfl hb
    have hrecv : (Place.inside b : Place Empty Consuming).Inside fun b => b = .recv :=
      hadvance.inside (fun _ => rfl) trivial
    exact absurd hrecv hb

/-- A producer takes a step: `publish` returns while nobody is in another call. -/
theorem Kept.producer {lock' : Mutex Bool (Party n m)} {s' : Crew n m} {j : Fin m} {what : Do}
    (h : Kept json client x jobs)
    (hstep : machine json client x (.producer j what) = some (lock', s')) :
    Kept json client (lock', s') (note x (.producer j what) jobs) := by
  have hserving := serving_step h.serving hstep
  have hsame : s'.consumers = x.2.consumers → s'.handed = x.2.handed → what = .next →
      Kept json client (lock', s') (note x (.producer j what) jobs) := by
    rintro hconsumers hhanded rfl
    refine h.keep hstep (by simp) (by simp) hhanded fun i b hi hb => ?_
    simp only [hconsumers] at hi
    exact ⟨b, hi, hb, fun _ => id⟩
  cases producer_step hstep with
  | @publish cmd hx =>
    refine ⟨hserving, ?_, ?_, ?_⟩
    · rw [note, handledBy_concat]
      exact (List.append_nil _).trans h.handed
    · intro i b hi _
      exact absurd hx ((h.serving.placed.alone hi).2 j _)
    · intro hrunning
      rw [note, cmdsOf_concat]
      exact delivered_push cmd (h.sent hrunning)
  | sentinel _ => exact hsame rfl rfl rfl
  | lock _ => exact hsame rfl rfl rfl

/-- Every step keeps the jobs in accord with the state. -/
theorem kept_step {a : Act n m} (h : Kept json client x jobs)
    (hstep : machine json client x a = some x') : Kept json client x' (note x a jobs) := by
  have hsame : x'.2.consumers = x.2.consumers → x'.2.handed = x.2.handed →
      (∀ i cmd, a ≠ .consumer i (.send cmd)) → (∀ j cmd, a ≠ .producer j (.send cmd)) →
      Kept json client x' jobs := by
    intro hconsumers hhanded hnot hnot'
    refine h.keep hstep hnot hnot' hhanded fun i b hi hb => ?_
    rw [hconsumers] at hi
    exact ⟨b, hi, hb, fun _ => id⟩
  cases a with
  | loop l =>
    obtain ⟨s, hloop, heq⟩ := Option.map_eq_some_iff.mp hstep
    cases heq
    have hloop := (loop_step hloop).same
    refine hsame ?_ ?_ nofun nofun
    · rw [hloop]
    · rw [hloop]
      rfl
  | tell msg =>
    cases tell_step hstep
    exact hsame rfl rfl nofun nofun
  | hangUp =>
    cases hstep
    exact hsame rfl rfl nofun nofun
  | consumer i what => exact h.consumer hstep
  | producer j what => exact h.producer hstep
  | waker =>
    obtain ⟨lock', s'⟩ := x'
    cases waker_step hstep <;> exact hsame rfl rfl nofun nofun
  | control =>
    obtain ⟨lock', s'⟩ := x'
    cases control_step hstep <;> exact hsame rfl rfl nofun nofun

end Kept

theorem kept_start (json : Json) (n m : ℕ) (client : Client) (alloc : Alloc) (clock : ℕ) :
    Kept json client (start n m client alloc clock) [] :=
  ⟨serving_start n m client alloc clock, rfl, nofun, fun _ =>
    EventLoop.delivered_start json client [] alloc clock⟩

/-- In every run the jobs are in accord with the state. -/
theorem kept_run
    {ok : (Mutex Bool (Party n m) × Crew n m) × List (Job n m) → Act n m → Prop} {alloc : Alloc}
    {clock : ℕ} {as : List (Act n m)} {x : Mutex Bool (Party n m) × Crew n m}
    {jobs : List (Job n m)} (hrun : JobRun json client ok alloc clock as x jobs) :
    Kept json client x jobs := by
  refine hrun.invariant (fun y => Kept json client y.1 y.2)
    (kept_start json n m client alloc clock) ?_
  rintro ⟨x, jobs⟩ a ⟨x', jobs'⟩ h - hstep
  obtain ⟨hstep, hnote⟩ := Machine.noting_eq_some.mp hstep
  simp only at hstep hnote
  rw [hnote]
  exact kept_step h hstep

/-! ## Inbound -/

/-- Take any client with any threads, and any run of it: whatever arrives, however it is cut into
reads, on the plain stream and after a switch to TLS.  `decode` takes frames off the reads, one
after the other, each of them whole, but for the last one of a read, which may lack its last bytes;
and a rest is left, which is in the read buffer unless `run` has crashed.  The calls of `on_msg` are
the message frames as `decode` takes them, that are not empty, in order and each once, with the
timestamp, the attempts, the id and the body that `decode_msg` reads there; and if the workers were
not stopped and the message channel is empty, these are all the message frames taken. -/
theorem inbound_exactly_once
    {ok : (Mutex Bool (Party n m) × Crew n m) × List (Job n m) → Act n m → Prop} {alloc : Alloc}
    {clock : ℕ} {as : List (Act n m)} {x : Mutex Bool (Party n m) × Crew n m}
    {jobs : List (Job n m)} (hrun : JobRun json client ok alloc clock as x jobs) :
    ∃ fs rest, Unpacked (reads x.2.loop.conn.log) fs rest ∧
      (∀ f ∈ fs, (f.Honest ∨ f.Cut) ∧ f.Readable) ∧
      (¬ EventLoop.Crashed x.2.loop → rest = x.2.loop.conn.rBuf) ∧
      (handledBy jobs).map parts <+: (messages fs).map msgFields ∧
      (¬ Stopped x.1 → x.2.queue = [] →
        (handledBy jobs).map parts = (messages fs).map msgFields) := by
  have hkept := kept_run hrun
  obtain ⟨-, fs, hfs⟩ := serving_run (hrun.forget fun _ _ _ => trivial)
  obtain ⟨rest, hunpacked, hrest⟩ := hfs.unpacked
  obtain ⟨hinit, hall⟩ := hkept.serving.handed_eq hfs
  rw [hkept.handed]
  exact ⟨fs, rest, hunpacked, fun f hf => ⟨hunpacked.honest_or_cut f hf, hfs.readable f hf⟩, hrest,
    hinit, hall⟩

/-- After the handshake a message arrives.  The consumer that is handed it sends `FIN` for it, and
the loop writes the command. -/
def oneJob (i : Fin n) : List (Act n m) := handling i (NsqCmd.fin "0123456789abcdef").asCmd

/-- Then the consumer returns, and a producer gets the lock and publishes. -/
def twoJobs (i : Fin n) (j : Fin m) : List (Act n m) :=
  oneJob i ++ [.consumer i .next, .consumer i .next, .producer j .next, .producer j .next,
    .producer j (.send (NsqCmd.pub "t" [66]).asCmd)]

set_option maxRecDepth 4000 in
/-- The message is handed over as it arrived. -/
theorem inbound_exactly_once_one :
    ∃ (jobs : List (Job 1 1)) (fs : List Frame),
      (handledBy jobs).map Msg.id = ["0123456789abcdef"] ∧
      (handledBy jobs).map parts <+: (messages fs).map msgFields := by
  have hexec : Machine.exec (Machine.noting (machine EventLoop.serde
      ⟨"t", "c", none, 1, .default none⟩) note) Machine.anything
      (start 1 1 ⟨"t", "c", none, 1, .default none⟩ .exact 0, []) (oneJob 0) = some _ := rfl
  obtain ⟨fs, -, -, -, -, hinit, -⟩ := inbound_exactly_once (Machine.Run.of_exec hexec)
  exact ⟨_, fs, by decide, hinit⟩

/-! ## Outbound -/

/-- The command sent in a step. -/
def Act.cmd : Act n m → Option Cmd
  | consumer _ (.send cmd) => some cmd
  | producer _ (.send cmd) => some cmd
  | _ => none

/-- The commands that a thread sent in a run. -/
def sentBy (p : Party n m) (as : List (Act n m)) : List Cmd :=
  (as.filter fun a => a.party = some p).filterMap Act.cmd

/-- The jobs of a thread. -/
def jobsBy (p : Party n m) (jobs : List (Job n m)) : List (Job n m) :=
  jobs.filter fun job => job.task.party = p

theorem jobsBy_concat (p : Party n m) (jobs : List (Job n m)) (job : Job n m) :
    cmdsOf (jobsBy p (jobs ++ [job])) =
      cmdsOf (jobsBy p jobs) ++ if job.task.party = p then job.cmds else [] := by
  rw [jobsBy, List.filter_append, cmdsOf, List.flatMap_append]
  by_cases hp : job.task.party = p <;> simp [jobsBy, cmdsOf, hp]

/-- What a step adds to the jobs of a thread is what the thread sends. -/
theorem Kept.sentBy {x x' : Mutex Bool (Party n m) × Crew n m} {jobs : List (Job n m)}
    {a : Act n m} (h : Kept json client x jobs) (hstep : machine json client x a = some x')
    (p : Party n m) :
    cmdsOf (jobsBy p (note x a jobs)) = cmdsOf (jobsBy p jobs) ++ Threads.sentBy p [a] := by
  obtain ⟨lock', s'⟩ := x'
  cases a with
  | consumer i what =>
    cases what with
    | next =>
      have hempty : Threads.sentBy p [Act.consumer i .next] = [] := by
        by_cases hp : p = .consumer i <;> simp [Threads.sentBy, Act.party, Act.cmd, hp]
      rw [hempty, List.append_nil, note]
      split
      · split_ifs
        · rw [jobsBy_concat]
          simp
        · split
          · rfl
          · rw [jobsBy_concat]
            simp
      · rfl
    | send cmd =>
      cases consumer_step hstep with
      | @sends closing _ hx =>
        obtain ⟨jobs', job, rfl, hjob⟩ := h.last i _ hx nofun
        rw [note, credit_concat hjob.party, jobsBy_concat, jobsBy_concat, List.append_assoc]
        by_cases hp : p = .consumer i
        · simp [Threads.sentBy, Act.party, Act.cmd, hp, hjob.party]
        · simp [Threads.sentBy, Act.party, Ne.symm hp, hjob.party]
  | producer j what =>
    cases what with
    | next =>
      by_cases hp : p = .producer j <;> simp [Threads.sentBy, Act.party, Act.cmd, hp, note]
    | send cmd =>
      rw [note, jobsBy_concat]
      by_cases hp : p = .producer j
      · simp [Threads.sentBy, Act.party, Act.cmd, hp, Task.party]
      · simp [Threads.sentBy, Act.party, Ne.symm hp, Task.party]
  | _ => simp [Threads.sentBy, List.filter_cons, Act.cmd, note, apply_ite]

/-- The commands of its jobs are what a thread sent. -/
theorem sentBy_run
    {ok : (Mutex Bool (Party n m) × Crew n m) × List (Job n m) → Act n m → Prop} {alloc : Alloc}
    {clock : ℕ} {as : List (Act n m)} {y : (Mutex Bool (Party n m) × Crew n m) × List (Job n m)}
    (hrun : Machine.Run (Machine.noting (machine json client) note) ok
      (start n m client alloc clock, []) as y) (p : Party n m) :
    Kept json client y.1 y.2 ∧ cmdsOf (jobsBy p y.2) = sentBy p as := by
  induction hrun with
  | nil => exact ⟨kept_start json n m client alloc clock, rfl⟩
  | @snoc as y y' a _ _ hu ih =>
    obtain ⟨hkept, hsent⟩ := ih
    obtain ⟨hstep, hnote⟩ := Machine.noting_eq_some.mp hu
    rw [hnote]
    refine ⟨kept_step hkept hstep, ?_⟩
    rw [hkept.sentBy hstep, hsent, sentBy, sentBy, sentBy, List.filter_append,
      List.filterMap_append]

/-- Whatever the handlers and the producers send, and however the threads interleave: in every run
in which the loop has not crashed, the commands taken from the command channel and written, and then
those still in it, are the commands of the jobs, one job after the other in the order in which the
jobs began.  So the commands of two jobs are never mixed; and what a thread sent are the commands
of its own jobs, in order. -/
theorem jobs_atomic
    {ok : (Mutex Bool (Party n m) × Crew n m) × List (Job n m) → Act n m → Prop} {alloc : Alloc}
    {clock : ℕ} {as : List (Act n m)} {x : Mutex Bool (Party n m) × Crew n m}
    {jobs : List (Job n m)} (hrun : JobRun json client ok alloc clock as x jobs)
    (hrunning : ¬ EventLoop.Crashed x.2.loop) :
    x.2.loop.conn.log.filterMap Obs.taken ++ x.2.loop.conn.r = cmdsOf jobs ∧
      ∀ p, sentBy p as = cmdsOf (jobsBy p jobs) :=
  ⟨((kept_run hrun).sent hrunning).sent, fun p => (sentBy_run hrun p).2.symm⟩

set_option maxRecDepth 4000 in
/-- The command of the consumer was written, and that of the producer is in the channel. -/
theorem jobs_atomic_two :
    ∃ (x : Mutex Bool (Party 1 1) × Crew 1 1) (jobs : List (Job 1 1)),
      x.2.loop.conn.log.filterMap Obs.taken ++ x.2.loop.conn.r = cmdsOf jobs ∧
      x.2.loop.conn.log.filterMap Obs.taken = [(NsqCmd.fin "0123456789abcdef").asCmd] ∧
      cmdsOf (jobsBy (.producer 0) jobs) = [(NsqCmd.pub "t" [66]).asCmd] := by
  have hexec : Machine.exec (Machine.noting (machine EventLoop.serde
      ⟨"t", "c", none, 1, .default none⟩) note) Machine.anything
      (start 1 1 ⟨"t", "c", none, 1, .default none⟩ .exact 0, []) (twoJobs 0 0) = some _ := rfl
  obtain ⟨hcmds, hsent⟩ :=
    jobs_atomic (Machine.Run.of_exec hexec) (EventLoop.not_crashed_of_plain rfl)
  exact ⟨_, _, hcmds, by decide, (hsent (.producer 0)).symm⟩

end Threads

end NsqClient
