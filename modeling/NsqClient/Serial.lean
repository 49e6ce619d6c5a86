import NsqClient.Jobs

set_option relaxedAutoImplicit false
set_option autoImplicit false

/-!
# The workers as one thread

An application gives the client handlers and producers.  What a call of them sends may depend on
the message and on everything that the application did before; a call that depends on more can be
described so as well, one run at a time.  Such a code can be run by a single thread, which makes one
call after the other.

Any number of workers of a client that run the code do what the single thread does: the commands in
the command channel are those that it sends, as far as the last call has come.

## Main definitions

* `NsqClient.Threads.Code` — what the calls of an application send.
* `NsqClient.Threads.serial` — the calls made by a single thread.
* `NsqClient.Threads.Runs` — the workers run the code.

## Main results

* `NsqClient.Threads.serves_step` — every step of the workers is one of the single thread, or a part
  of one.
* `NsqClient.Threads.serializable` — the command channel of a client and of the single thread.
-/

namespace NsqClient

namespace Threads

open Mutex (Place)

variable {n m : ℕ} {json : Json} {client : Client}

/-! ## Code -/

/-- What a call sends, after the jobs before it. -/
abbrev Code (n m : ℕ) := List (Job n m) → Task n m → List Cmd

/-- The calls, made one after the other. -/
def serial (code : Code n m) (tasks : List (Task n m)) : List (Job n m) :=
  tasks.foldl (fun jobs task => jobs ++ [⟨task, code jobs task⟩]) []

/-- The last job of a thread, and the jobs before it. -/
def current (p : Party n m) : List (Job n m) → Option (List (Job n m) × Job n m)
  | [] => none
  | job :: jobs =>
    match current p jobs with
    | some (before, last) => some (job :: before, last)
    | none => if job.task.party = p then some ([], job) else none

/-- The steps of workers that run the code: a command sent in a call of `on_msg` or `on_close` is
the next one that the code sends there, such a call returns when all its commands are sent, and
`publish` returns the command of the code. -/
def Runs (code : Code n m) (y : (Mutex Bool (Party n m) × Crew n m) × List (Job n m)) :
    Act n m → Prop
  | .consumer i (.send cmd) =>
    ∀ c ∈ current (.consumer i) y.2, c.2.cmds ++ [cmd] <+: code c.1 c.2.task
  | .consumer i .next =>
    ∀ closing, y.1.2.consumers i = .inside (.handler closing) →
      ∀ c ∈ current (.consumer i) y.2, c.2.cmds = code c.1 c.2.task
  | .producer j (.send cmd) => code y.2 (.publish j) = [cmd]
  | _ => True

instance (code : Code n m) (y : (Mutex Bool (Party n m) × Crew n m) × List (Job n m)) :
    (a : Act n m) → Decidable (Runs code y a)
  | .consumer i (.send cmd) =>
    inferInstanceAs (Decidable (∀ c ∈ current (.consumer i) y.2,
      c.2.cmds ++ [cmd] <+: code c.1 c.2.task))
  | .consumer i .next =>
    inferInstanceAs (Decidable (∀ closing, y.1.2.consumers i = .inside (.handler closing) →
      ∀ c ∈ current (.consumer i) y.2, c.2.cmds = code c.1 c.2.task))
  | .producer j (.send cmd) => inferInstanceAs (Decidable (code y.2 (.publish j) = [cmd]))
  | .producer _ .next => .isTrue trivial
  | .loop _ => .isTrue trivial
  | .tell _ => .isTrue trivial
  | .hangUp => .isTrue trivial
  | .waker => .isTrue trivial
  | .control => .isTrue trivial

@[simp] theorem serial_nil (code : Code n m) : serial code [] = [] := rfl

/-- One more call. -/
@[simp] theorem serial_concat (code : Code n m) (tasks : List (Task n m)) (task : Task n m) :
    serial code (tasks ++ [task]) =
      serial code tasks ++ [⟨task, code (serial code tasks) task⟩] := by
  simp [serial]

/-- The single thread makes the calls it is given. -/
theorem map_task_serial (code : Code n m) (tasks : List (Task n m)) :
    (serial code tasks).map Job.task = tasks := by
  induction tasks using List.reverseRecOn with
  | nil => rfl
  | append_singleton tasks task ih => rw [serial_concat, List.map_append, ih, List.map_singleton]

/-- The last job of all is the last one of its thread. -/
theorem current_concat {p : Party n m} {job : Job n m} (hjob : job.task.party = p)
    (jobs : List (Job n m)) : current p (jobs ++ [job]) = some (jobs, job) := by
  induction jobs with
  | nil => simp [current, hjob]
  | cons job' jobs ih => simp [current, ih]

/-! ## The workers and the single thread -/

/-- Whether a consumer is in a call. -/
def calling : Place Empty Consuming → Bool
  | .inside .recv => false
  | .inside _ => true
  | _ => false

/-- Some consumer is in a call. -/
def Busy (s : Crew n m) : Prop := ∃ i, calling (s.consumers i) = true

/-- Where a consumer in a call is. -/
theorem exists_inside_of_calling {x : Place Empty Consuming} (h : calling x = true) :
    ∃ b, x = .inside b ∧ b ≠ .recv := by
  cases x with
  | inside b =>
    refine ⟨b, rfl, ?_⟩
    rintro rfl
    cases h
  | _ => cases h

/-- A consumer moves, and no other is in a call. -/
theorem busy_setConsumer {s : Crew n m} {i : Fin n} {x : Place Empty Consuming}
    (h : ∀ j, j ≠ i → calling (s.consumers j) = false) :
    Busy (s.setConsumer i x) ↔ calling x = true := by
  constructor
  · rintro ⟨j, hj⟩
    by_cases hji : j = i
    · subst hji
      simpa [Crew.setConsumer] using hj
    · rw [Crew.setConsumer] at hj
      simp only [Function.update_of_ne hji, h j hji] at hj
      cases hj
  · exact fun hx => ⟨i, by simpa [Crew.setConsumer] using hx⟩

/-- A consumer moves from a call to a call, or outside of calls. -/
theorem busy_setConsumer_same {s : Crew n m} {i : Fin n} {x : Place Empty Consuming}
    (h : calling x = calling (s.consumers i)) : Busy (s.setConsumer i x) ↔ Busy s := by
  have hplace : ∀ j, calling ((s.setConsumer i x).consumers j) = calling (s.consumers j) := by
    intro j
    by_cases hji : j = i
    · subst hji
      simpa [Crew.setConsumer] using h
    · simp [Crew.setConsumer, hji]
  simp only [Busy, hplace]

/-- The jobs are those of the single thread, of the last one perhaps a part. -/
structure Serves (code : Code n m) (s : Crew n m) (jobs : List (Job n m)) : Prop where
  idle : ¬ Busy s → ∃ tasks, jobs = serial code tasks
  busy : Busy s → ∃ tasks job, jobs = serial code tasks ++ [job] ∧
    job.cmds <+: code (serial code tasks) job.task

section Serves

variable {code : Code n m} {x x' : Mutex Bool (Party n m) × Crew n m} {jobs : List (Job n m)}

/-- A step without a job, from calls to calls. -/
theorem Serves.keep {s s' : Crew n m} (h : Serves code s jobs) (hbusy : Busy s' ↔ Busy s) :
    Serves code s' jobs :=
  ⟨fun hnot => h.idle fun hb => hnot (hbusy.mpr hb), fun hb => h.busy (hbusy.mp hb)⟩

/-- While a consumer is inside the lock, no other one is in a call. -/
theorem Kept.others (h : Kept json client x jobs) {i : Fin n} {b : Consuming}
    (hi : x.2.consumers i = .inside b) (j : Fin n) (hj : j ≠ i) :
    calling (x.2.consumers j) = false := by
  cases hcalling : calling (x.2.consumers j) with
  | false => rfl
  | true =>
    obtain ⟨b', hb', -⟩ := exists_inside_of_calling hcalling
    exact absurd ((h.serving.placed.alone hi).1 j b' hb') hj

/-- While a consumer waits for a message, nobody is in a call. -/
theorem Kept.not_busy (h : Kept json client x jobs) {i : Fin n}
    (hi : x.2.consumers i = .inside .recv) : ¬ Busy x.2 := by
  rintro ⟨j, hj⟩
  by_cases hji : j = i
  · subst hji
    rw [hi] at hj
    cases hj
  · rw [h.others hi j hji] at hj
    cases hj

/-- The last job is the call that a consumer is in. -/
theorem Serves.last_call {i : Fin n} {b : Consuming} (h : Serves code x.2 jobs)
    (hkept : Kept json client x jobs) (hx : x.2.consumers i = .inside b) (hb : b ≠ .recv) :
    ∃ tasks job, jobs = serial code tasks ++ [job] ∧ InCall i b job.task := by
  have hcalling : calling (x.2.consumers i) = true := by
    rw [hx]
    cases b with
    | recv => exact absurd rfl hb
    | _ => rfl
  obtain ⟨tasks, job, hjobs, -⟩ := h.busy ⟨i, hcalling⟩
  obtain ⟨jobs', job', hjobs', hjob⟩ := hkept.last i b hx hb
  obtain ⟨-, hlast⟩ := List.append_inj' (hjobs.symm.trans hjobs') rfl
  cases hlast
  exact ⟨tasks, job, hjobs, hjob⟩

/-- A call begins while no other is made, so the jobs before are complete. -/
theorem Serves.begins {i : Fin n} {b : Consuming} {task : Task n m} {s : Crew n m}
    (h : Serves code x.2 jobs) (hkept : Kept json client x jobs)
    (hx : x.2.consumers i = .inside .recv) (hb : b ≠ .recv) :
    Serves code (s.setConsumer i (.inside b)) (jobs ++ [⟨task, []⟩]) := by
  obtain ⟨tasks, rfl⟩ := h.idle (hkept.not_busy hx)
  have hbusy : Busy (s.setConsumer i (.inside b)) := by
    refine ⟨i, ?_⟩
    cases b with
    | recv => exact absurd rfl hb
    | _ => simp [Crew.setConsumer, calling]
  exact ⟨fun hnot => absurd hbusy hnot, fun _ => ⟨tasks, _, rfl, List.nil_prefix⟩⟩

/-- A consumer takes a step of the code.

**Proof sketch.** A call begins while no other is made, so the jobs before are complete.  The
commands of a call follow the code as far as they go, and when it returns they are all of them. -/
theorem Serves.consumer {lock' : Mutex Bool (Party n m)} {s' : Crew n m} {i : Fin n} {what : Do}
    (h : Serves code x.2 jobs) (hkept : Kept json client x jobs)
    (hruns : Runs code (x, jobs) (.consumer i what))
    (hstep : machine json client x (.consumer i what) = some (lock', s')) :
    Serves code s' (note x (.consumer i what) jobs) := by
  cases consumer_step hstep with
  | closed hx hqueue hnil =>
    rw [note_closed hx hqueue jobs hnil]
    exact h.begins hkept hx (by simp)
  | short hx hqueue hne hmsg =>
    rw [note_short hx hqueue jobs hne hmsg]
    refine h.keep (busy_setConsumer_same ?_)
    simp only [hx]
    rfl
  | @message msg queue y hx hqueue hne hmsg =>
    rw [note_message hx hqueue jobs hne hmsg]
    exact h.begins hkept hx (by simp)
  | @returned closing hx =>
    rw [note_next (by simp [hx])]
    have hidle : ¬ Busy (x.2.setConsumer i (if closing then .leave else .unlock)) := by
      rw [busy_setConsumer (hkept.others hx)]
      cases closing <;> simp [calling]
    refine ⟨fun _ => ?_, fun hb => absurd hb hidle⟩
    obtain ⟨tasks, job, rfl, hjob⟩ := h.last_call hkept hx (by simp)
    have hcmds := hruns closing hx _ (current_concat hjob.party _)
    simp only at hcmds
    refine ⟨tasks ++ [job.task], ?_⟩
    rw [serial_concat, ← hcmds]
  | @sends closing cmd hx =>
    obtain ⟨tasks, job, rfl, hjob⟩ := h.last_call hkept hx (by simp)
    have hcmds := hruns _ (current_concat hjob.party _)
    rw [note, credit_concat hjob.party]
    have hbusy : Busy ((x.2.push cmd).setConsumer i (.inside (.sentinel closing))) :=
      ⟨i, by simp [Crew.setConsumer, calling]⟩
    exact ⟨fun hnot => absurd hbusy hnot, fun _ => ⟨tasks, _, rfl, hcmds⟩⟩
  | @sentinel closing hx =>
    rw [note_next (by simp [hx])]
    refine h.keep (busy_setConsumer_same ?_)
    simp only [hx]
    rfl
  | @lock _ y hadvance =>
    have hplace : calling (x.2.consumers i) = false := by
      cases hplace : x.2.consumers i with
      | inside b => exact absurd hplace (not_inside_of_advanced hadvance b)
      | _ => rfl
    rw [note_next (not_inside_of_advanced hadvance _)]
    refine h.keep (busy_setConsumer_same ?_)
    have hinside : y.Inside fun b => b = .recv := hadvance.inside (fun _ => rfl) trivial
    rw [hplace]
    cases y with
    | inside b =>
      obtain rfl : b = .recv := hinside
      rfl
    | _ => rfl

/-- Every step of the workers is one of the single thread, or a part of one. -/
theorem serves_step {a : Act n m} (h : Serves code x.2 jobs) (hkept : Kept json client x jobs)
    (hruns : Runs code (x, jobs) a) (hstep : machine json client x a = some x') :
    Serves code x'.2 (note x a jobs) := by
  obtain ⟨lock', s'⟩ := x'
  have hsame : s'.consumers = x.2.consumers → Serves code s' jobs := by
    intro hconsumers
    refine h.keep ?_
    simp only [Busy, hconsumers]
  cases a with
  | loop l =>
    obtain ⟨s, hloop, heq⟩ := Option.map_eq_some_iff.mp hstep
    cases heq
    have hloop := (loop_step hloop).same
    refine hsame ?_
    rw [hloop]
  | tell msg =>
    cases tell_step hstep
    exact hsame rfl
  | hangUp =>
    cases hstep
    exact hsame rfl
  | consumer i what => exact h.consumer hkept hruns hstep
  | producer j what =>
    cases producer_step hstep with
    | @publish cmd hx =>
      have hidle : ¬ Busy x.2 := by
        rintro ⟨i, hi⟩
        obtain ⟨b, hb, -⟩ := exists_inside_of_calling hi
        exact (hkept.serving.placed.alone hb).2 j _ hx
      obtain ⟨tasks, rfl⟩ := h.idle hidle
      have hcmds : code (serial code tasks) (.publish j) = [cmd] := hruns
      rw [note]
      refine ⟨fun _ => ⟨tasks ++ [.publish j], ?_⟩, fun hb => absurd hb hidle⟩
      rw [serial_concat, hcmds]
    | sentinel _ => exact hsame rfl
    | lock _ => exact hsame rfl
  | waker => cases waker_step hstep <;> exact hsame rfl
  | control => cases control_step hstep <;> exact hsame rfl

end Serves

/-- In every run of workers that run the code, their jobs are those of the single thread. -/
theorem serves_run {code : Code n m}
    {ok : (Mutex Bool (Party n m) × Crew n m) × List (Job n m) → Act n m → Prop}
    (hok : ∀ y a, ok y a → Runs code y a) {alloc : Alloc} {clock : ℕ} {as : List (Act n m)}
    {x : Mutex Bool (Party n m) × Crew n m} {jobs : List (Job n m)}
    (hrun : JobRun json client ok alloc clock as x jobs) :
    Kept json client x jobs ∧ Serves code x.2 jobs := by
  have hidle : ¬ Busy (start n m client alloc clock).2 := by
    rintro ⟨i, hi⟩
    cases hi
  refine hrun.invariant (fun y => Kept json client y.1 y.2 ∧ Serves code y.1.2 y.2)
    ⟨kept_start json n m client alloc clock, fun _ => ⟨[], rfl⟩, fun hb => absurd hb hidle⟩ ?_
  rintro ⟨x, jobs⟩ a ⟨x', jobs'⟩ ⟨hkept, hserves⟩ hruns hstep
  obtain ⟨hstep, hnote⟩ := Machine.noting_eq_some.mp hstep
  simp only at hstep hnote
  rw [hnote]
  exact ⟨kept_step hkept hstep, serves_step hserves hkept (hok _ _ hruns) hstep⟩

/-- The commands of the jobs are what the single thread sends in the same calls: all of it, unless a
consumer is in the last call, and then as far as that call has come. -/
theorem Serves.cmds {code : Code n m} {s : Crew n m} {jobs : List (Job n m)}
    (h : Serves code s jobs) :
    cmdsOf jobs <+: cmdsOf (serial code (jobs.map Job.task)) ∧
      cmdsOf (serial code (jobs.map Job.task).dropLast) <+: cmdsOf jobs ∧
      (¬ Busy s → cmdsOf jobs = cmdsOf (serial code (jobs.map Job.task))) := by
  by_cases hbusy : Busy s
  · obtain ⟨tasks, job, rfl, hcmds⟩ := h.busy hbusy
    rw [List.map_append, map_task_serial, List.map_singleton]
    refine ⟨?_, ?_, fun hnot => absurd hbusy hnot⟩
    · rw [serial_concat, cmdsOf_concat, cmdsOf_concat]
      exact (List.prefix_append_right_inj _).mpr hcmds
    · rw [List.dropLast_concat, cmdsOf_concat]
      exact List.prefix_append _ _
  · obtain ⟨tasks, rfl⟩ := h.idle hbusy
    rw [map_task_serial]
    refine ⟨List.prefix_rfl, ?_, fun _ => rfl⟩
    rcases List.eq_nil_or_concat tasks with rfl | ⟨tasks, task, rfl⟩
    · exact List.prefix_rfl
    · rw [List.concat_eq_append, List.dropLast_concat, serial_concat, cmdsOf_concat]
      exact List.prefix_append _ _

/-- Take any code of an application, and any run of any number of consumers and producers that run
it.  There are calls, whose messages are those that were handed over, such that the commands of the
command channel, those taken from it and then those still in it, are what a single thread sends that
makes these calls one after the other: all of it, unless a consumer is in the last call, and then as
far as that call has come. -/
theorem serializable {code : Code n m}
    {ok : (Mutex Bool (Party n m) × Crew n m) × List (Job n m) → Act n m → Prop}
    (hok : ∀ y a, ok y a → Runs code y a) {alloc : Alloc} {clock : ℕ} {as : List (Act n m)}
    {x : Mutex Bool (Party n m) × Crew n m} {jobs : List (Job n m)}
    (hrun : JobRun json client ok alloc clock as x jobs)
    (hrunning : ¬ EventLoop.Crashed x.2.loop) :
    ∃ tasks : List (Task n m), tasks.filterMap Task.msg = x.2.handed ∧
      x.2.loop.conn.log.filterMap Obs.taken ++ x.2.loop.conn.r <+: cmdsOf (serial code tasks) ∧
      cmdsOf (serial code tasks.dropLast) <+:
        x.2.loop.conn.log.filterMap Obs.taken ++ x.2.loop.conn.r ∧
      (¬ Busy x.2 → x.2.loop.conn.log.filterMap Obs.taken ++ x.2.loop.conn.r =
        cmdsOf (serial code tasks)) := by
  obtain ⟨hkept, hserves⟩ := serves_run hok hrun
  refine ⟨jobs.map Job.task, ?_, ?_⟩
  · rw [← hkept.handed, List.filterMap_map]
    rfl
  · rw [(hkept.sent hrunning).sent]
    exact hserves.cmds

/-- A handler that sends `FIN` for every message, and a producer. -/
def answering : Code 1 1
  | _, .onMsg _ msg => [(NsqCmd.fin msg.id).asCmd]
  | _, .onClose _ => []
  | _, .publish _ => [(NsqCmd.pub "t" [66]).asCmd]

set_option maxRecDepth 4000 in
/-- The handler answers a message, and the producer publishes: the single thread sends the same
commands. -/
theorem serializable_two :
    ∃ (x : Mutex Bool (Party 1 1) × Crew 1 1) (tasks : List (Task 1 1)),
      x.2.handed.map Msg.id = ["0123456789abcdef"] ∧ tasks.filterMap Task.msg = x.2.handed ∧
      x.2.loop.conn.log.filterMap Obs.taken ++ x.2.loop.conn.r <+: cmdsOf (serial answering tasks) ∧
      x.2.loop.conn.log.filterMap Obs.taken ++ x.2.loop.conn.r =
        [(NsqCmd.fin "0123456789abcdef").asCmd, (NsqCmd.pub "t" [66]).asCmd] := by
  have hexec : Machine.exec (Machine.noting (machine EventLoop.serde
      ⟨"t", "c", none, 1, .default none⟩) note) (Runs answering)
      (start 1 1 ⟨"t", "c", none, 1, .default none⟩ .exact 0, []) (twoJobs 0 0) = some _ := rfl
  obtain ⟨tasks, hmsgs, hinit, -, -⟩ :=
    serializable (fun _ _ h => h) (Machine.Run.of_exec hexec) (EventLoop.not_crashed_of_plain rfl)
  exact ⟨_, tasks, by decide, hmsgs, hinit, by decide⟩

end Threads

end NsqClient
