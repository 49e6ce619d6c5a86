import NsqClient.Threads

set_option relaxedAutoImplicit false
set_option autoImplicit false

/-!
# The consumers of a client

The consumers of a crew, with the lock and the message channel, are a dispatcher: the loop sends to
its channel, and the producers, the waker and the control thread are the others who take the lock.
A dispatcher takes more steps for the same work, since a crew receives a message and passes it to
the handler at once.  So what holds of dispatchers holds of the consumers of a client, between the
loop and the workers.

## Main definitions

* `NsqClient.Threads.pcOf` — where the dispatcher sees a consumer.
* `NsqClient.Threads.Dispatches` — a dispatcher looks like the consumers of a crew.

## Main results

* `NsqClient.Threads.dispatches_step` — a dispatcher answers every step of a crew by a run.
* `NsqClient.Threads.handles_in_order` — the consumers of a client handle what the loop sent, in
  order and each message once.
-/

namespace NsqClient

namespace Threads

open Mutex (Place)

variable {n m : ℕ} {json : Json} {client : Client}

/-- Where the dispatcher sees a consumer.  A send is a part of the handler. -/
def pcOf : Place Empty Consuming → Dispatch.Pc
  | .lock => .lock
  | .test => .test
  | .inside .recv => .recv
  | .inside (.handler false) => .inMsg
  | .inside (.sentinel false) => .inMsg
  | .inside (.handler true) => .inClose
  | .inside (.sentinel true) => .inClose
  | .unlock => .unlock
  | .leave => .leave
  | .done => .done
  | .panicked => .panicked

/-- Whom the dispatcher sees holding the lock. -/
def partyOf : Party n m → Dispatch.Party n
  | .consumer i => .consumer i
  | _ => .other

/-- Who received which messages. -/
def receivedBy (log : List (Dispatch.Event n)) : List (Fin n × BytesMsg) :=
  log.filterMap fun
    | .received i msg => some (i, msg)
    | _ => none

/-- A dispatcher looks like the consumers of a crew, with the lock and the message channel. -/
structure Dispatches (x : Mutex Bool (Party n m) × Crew n m) (d : Dispatch.State n) : Prop where
  connected : d.connected = x.1.value
  poisoned : d.poisoned = x.1.poisoned
  owner : d.owner = x.1.owner.map partyOf
  pc : d.pc = fun i => pcOf (x.2.consumers i)
  queue : d.queue = x.2.queue
  senders : d.senders = true
  sent : d.sent = x.2.loop.conn.s
  received : receivedBy d.log = x.2.received

/-! ## Steps -/

section Steps

variable {lock lock' : Mutex Bool (Party n m)} {s s' : Crew n m} {d : Dispatch.State n}

/-- The places of the consumers when one of them moves. -/
theorem pc_setConsumer {i : Fin n} {x : Place Empty Consuming} {pc : Dispatch.Pc}
    (h : d.pc = fun i => pcOf (s.consumers i)) (hpc : pcOf x = pc) :
    Function.update d.pc i pc = fun j => pcOf ((s.setConsumer i x).consumers j) := by
  funext j
  by_cases hj : j = i
  · subst hj
    simp [Crew.setConsumer, hpc]
  · simp [Crew.setConsumer, hj, h]

/-- A thread that the dispatcher does not know takes a step that concerns the lock. -/
theorem dispatches_other {α β : Type} {x y enter again : Place α β} {p : Party n m}
    (h : Dispatches (lock, s) d) (hp : partyOf p = .other)
    (howns : x.critical = true → lock.owner = some p)
    (hadvance : Place.Advanced enter again p lock x lock' y)
    (hsame : s'.consumers = s.consumers ∧ s'.loop = s.loop ∧ s'.taken = s.taken ∧
      s'.received = s.received) :
    ∃ ls d', Machine.Run Dispatch.step Machine.anything d ls d' ∧ Dispatches (lock', s') d' := by
  obtain ⟨hconsumers, hloop, htaken, hreceived⟩ := hsame
  have hrest : ∀ {d' : Dispatch.State n}, d'.connected = d.connected → d'.poisoned = d.poisoned →
      d'.owner = lock'.owner.map partyOf → d'.pc = d.pc → d'.queue = d.queue →
      d'.senders = d.senders → d'.sent = d.sent → d'.log = d.log → Dispatches (lock', s') d' := by
    intro d' hc hpo ho hpc hq hse hsent hlog
    obtain ⟨hvalue, hpoisoned⟩ := hadvance.value
    refine ⟨?_, ?_, ho, ?_, ?_, hse.trans h.senders, ?_, ?_⟩
    · exact hc.trans (h.connected.trans hvalue.symm)
    · exact hpo.trans (h.poisoned.trans hpoisoned.symm)
    · rw [hpc, h.pc, hconsumers]
    · rw [hq, h.queue, Crew.queue, Crew.queue, hloop, htaken]
    · rw [hsent, h.sent, hloop]
    · rw [hlog, h.received, hreceived]
  have howner := h.owner
  have hpoisoned := h.poisoned
  simp only at howner hpoisoned
  have hfree : ∀ {o : Party n m}, lock.owner = some o → partyOf o = .other →
      Machine.Run Dispatch.step Machine.anything d ([] ++ [.otherUnlocks])
        { d with owner := none } := by
    intro o ho hother
    rw [ho, Option.map_some, hother] at howner
    exact .snoc .nil trivial (by simp [Dispatch.step, howner])
  cases hadvance with
  | panic _ _ => exact ⟨[], d, .nil, hrest rfl rfl howner rfl rfl rfl rfl rfl⟩
  | acquire hnone hclean =>
    refine ⟨[] ++ [.otherLocks], { d with owner := some .other }, .snoc .nil trivial ?_, ?_⟩
    · rw [hnone] at howner
      rw [hclean] at hpoisoned
      simp [Dispatch.step, howner, hpoisoned]
    · exact hrest rfl rfl (by simp [hp]) rfl rfl rfl rfl rfl
  | go _ => exact ⟨[], d, .nil, hrest rfl rfl howner rfl rfl rfl rfl rfl⟩
  | stop _ => exact ⟨[], d, .nil, hrest rfl rfl howner rfl rfl rfl rfl rfl⟩
  | unlock => exact ⟨_, _, hfree (howns rfl) hp, hrest rfl rfl rfl rfl rfl rfl rfl rfl⟩
  | leave => exact ⟨_, _, hfree (howns rfl) hp, hrest rfl rfl rfl rfl rfl rfl rfl rfl⟩

/-- A consumer takes a step that concerns the lock. -/
theorem dispatches_lock {i : Fin n} {x : Place Empty Consuming} (h : Dispatches (lock, s) d)
    (howns : (s.consumers i).critical = true → lock.owner = some (.consumer i))
    (hadvance : Place.Advanced (.inside .recv) .lock (.consumer i) lock (s.consumers i) lock' x) :
    ∃ d', Dispatch.step d (.consumer i) = some d' ∧ Dispatches (lock', s.setConsumer i x) d' := by
  have hpc : d.pc i = pcOf (s.consumers i) := by rw [h.pc]
  have hconnected := h.connected
  have howner := h.owner
  have hpoisoned := h.poisoned
  simp only at hconnected howner hpoisoned
  have hmoves := @pc_setConsumer n m s d i x _ h.pc rfl
  generalize s.consumers i = y at hadvance hpc howns
  cases hadvance with
  | panic hnone hbad =>
    refine ⟨d.goto i .panicked, ?_, ?_⟩
    · rw [hnone] at howner
      rw [hbad] at hpoisoned
      simp [Dispatch.step, Dispatch.stepConsumer, hpc, pcOf, howner, hpoisoned]
    · exact ⟨h.connected, h.poisoned, h.owner, hmoves, h.queue, h.senders, h.sent, h.received⟩
  | acquire hnone hclean =>
    refine ⟨{ d with owner := some (.consumer i) }.goto i .test, ?_, ?_⟩
    · rw [hnone] at howner
      rw [hclean] at hpoisoned
      simp [Dispatch.step, Dispatch.stepConsumer, hpc, pcOf, howner, hpoisoned]
    · exact ⟨h.connected, h.poisoned, rfl, hmoves, h.queue, h.senders, h.sent, h.received⟩
  | go hvalue =>
    refine ⟨d.goto i .recv, ?_, ?_⟩
    · rw [hvalue] at hconnected
      simp [Dispatch.step, Dispatch.stepConsumer, hpc, pcOf, hconnected]
    · exact ⟨h.connected, h.poisoned, h.owner, hmoves, h.queue, h.senders, h.sent, h.received⟩
  | stop hvalue =>
    refine ⟨d.goto i .leave, ?_, ?_⟩
    · rw [hvalue] at hconnected
      simp [Dispatch.step, Dispatch.stepConsumer, hpc, pcOf, hconnected]
    · exact ⟨h.connected, h.poisoned, h.owner, hmoves, h.queue, h.senders, h.sent, h.received⟩
  | unlock =>
    refine ⟨{ d with owner := none }.goto i .lock, ?_, ?_⟩
    · simp [Dispatch.step, Dispatch.stepConsumer, hpc, pcOf]
    · exact ⟨h.connected, h.poisoned, rfl, hmoves, h.queue, h.senders, h.sent, h.received⟩
  | leave =>
    refine ⟨{ d with owner := none }.goto i .done, ?_, ?_⟩
    · simp [Dispatch.step, Dispatch.stepConsumer, hpc, pcOf]
    · exact ⟨h.connected, h.poisoned, rfl, hmoves, h.queue, h.senders, h.sent, h.received⟩

/-- A consumer receives a message, and then does with it what the dispatcher does at `got`. -/
theorem dispatches_received {i : Fin n} {msg : BytesMsg} {queue : List BytesMsg}
    (h : Dispatches (lock, s) d) (hx : s.consumers i = .inside .recv)
    (hqueue : s.queue = msg :: queue) :
    Dispatch.step d (.consumer i) = some ({ d with
        queue := queue
        log := d.log ++ [Dispatch.Event.received i msg] }.goto i (.got msg)) ∧
      ({ s with taken := s.taken + 1, received := s.received ++ [(i, msg)] } : Crew n m).queue =
        queue ∧
      receivedBy (d.log ++ [Dispatch.Event.received i msg]) = s.received ++ [(i, msg)] := by
  have hpc : d.pc i = .recv := by simp [h.pc, hx, pcOf]
  have hdqueue : d.queue = msg :: queue := h.queue.trans hqueue
  refine ⟨?_, ?_, ?_⟩
  · simp [Dispatch.step, Dispatch.stepConsumer, hpc, hdqueue]
  · have hdrop : s.loop.conn.s.drop s.taken = msg :: queue := hqueue
    show s.loop.conn.s.drop (s.taken + 1) = queue
    rw [← List.drop_drop, hdrop]
    rfl
  · have hreceived : receivedBy d.log = s.received := h.received
    rw [← hreceived]
    simp [receivedBy]

/-- A dispatcher answers a step of a consumer: by a step of its own if the step concerns the lock or
the handler returns, by none if the handler sends a command, and by more of them if a message is
received. -/
theorem dispatches_consumer {i : Fin n} {what : Do} (h : Dispatches (lock, s) d)
    (hexclusive : lock.Exclusive s.holds) (hstep : ConsumerStep id lock s i what lock' s') :
    ∃ ls d', Machine.Run Dispatch.step Machine.anything d ls d' ∧ Dispatches (lock', s') d' := by
  have hpc : d.pc i = pcOf (s.consumers i) := by rw [h.pc]
  have hat : ∀ (e : Dispatch.State n) (pc : Dispatch.Pc), (e.goto i pc).pc i = pc := by
    intro e pc
    simp [Dispatch.State.goto]
  cases hstep with
  | @closed msg queue hx hqueue hnil =>
    obtain ⟨hgot, hrest, hreceived⟩ := dispatches_received h hx hqueue
    have hclose : ∀ {e : Dispatch.State n}, e.pc i = .got msg →
        Dispatch.step e (.consumer i) = some ({ e with connected := false }.goto i .close) := by
      intro e he
      simp [Dispatch.step, Dispatch.stepConsumer, he, hnil]
    have hcall : ∀ {e : Dispatch.State n}, e.pc i = .close → Dispatch.step e (.consumer i) =
        some ({ e with log := e.log ++ [Dispatch.Event.onClose i] }.goto i .inClose) := by
      intro e he
      simp [Dispatch.step, Dispatch.stepConsumer, he]
    refine ⟨_, _, .cons trivial hgot (.cons trivial (hclose (hat _ _))
      (.cons trivial (hcall (hat _ _)) .nil)), ?_⟩
    refine ⟨rfl, h.poisoned, h.owner, ?_, hrest.symm, h.senders, h.sent, ?_⟩
    · have hmoves := @pc_setConsumer n m s d i (.inside (.handler true)) _ h.pc rfl
      simp only [Dispatch.State.goto, Function.update_idem]
      exact hmoves
    · simp only [Dispatch.State.goto, receivedBy, List.filterMap_append] at hreceived ⊢
      rw [hreceived]
      exact List.append_nil _
  | @short msg queue p hx hqueue hne hmsg =>
    obtain ⟨hgot, hrest, hreceived⟩ := dispatches_received h hx hqueue
    have hpanic : ∀ {e : Dispatch.State n}, e.pc i = .got msg → Dispatch.step e (.consumer i) =
        some ({ e with poisoned := true, owner := none }.goto i .panicked) := by
      intro e he
      simp [Dispatch.step, Dispatch.stepConsumer, he, hne, hmsg]
    refine ⟨_, _, .cons trivial hgot (.cons trivial (hpanic (hat _ _)) .nil), ?_⟩
    refine ⟨h.connected, rfl, rfl, ?_, hrest.symm, h.senders, h.sent, hreceived⟩
    have hmoves := @pc_setConsumer n m s d i .panicked _ h.pc rfl
    simp only [Dispatch.State.goto, Function.update_idem]
    exact hmoves
  | @message msg queue x hx hqueue hne hmsg =>
    obtain ⟨hgot, hrest, hreceived⟩ := dispatches_received h hx hqueue
    have hcall : ∀ {e : Dispatch.State n}, e.pc i = .got msg → Dispatch.step e (.consumer i) =
        some ({ e with log := e.log ++ [Dispatch.Event.onMsg i x] }.goto i .inMsg) := by
      intro e he
      simp [Dispatch.step, Dispatch.stepConsumer, he, hne, hmsg]
    refine ⟨_, _, .cons trivial hgot (.cons trivial (hcall (hat _ _)) .nil), ?_⟩
    refine ⟨h.connected, h.poisoned, h.owner, ?_, hrest.symm, h.senders, h.sent, ?_⟩
    · have hmoves := @pc_setConsumer n m s d i (.inside (.handler false)) _ h.pc rfl
      simp only [Dispatch.State.goto, Function.update_idem]
      exact hmoves
    · simp only [Dispatch.State.goto, receivedBy, List.filterMap_append] at hreceived ⊢
      rw [hreceived]
      exact List.append_nil _
  | @returned closing hx =>
    rw [hx] at hpc
    have hmoves := @pc_setConsumer n m s d i (if closing then .leave else .unlock) _ h.pc rfl
    refine ⟨[] ++ [.consumer i], d.goto i (pcOf (if closing then .leave else .unlock)),
      .snoc .nil trivial ?_, h.connected, h.poisoned, h.owner, hmoves, h.queue, h.senders, h.sent,
      h.received⟩
    cases closing with
    | false => simp [Dispatch.step, Dispatch.stepConsumer, hpc, pcOf]
    | true => simp [Dispatch.step, Dispatch.stepConsumer, hpc, pcOf]
  | @sends closing cmd hx =>
    refine ⟨[], d, .nil, h.connected, h.poisoned, h.owner, ?_, h.queue, h.senders, h.sent,
      h.received⟩
    have hmoves := @pc_setConsumer n m s d i (.inside (.sentinel closing)) (d.pc i) h.pc
      (by rw [hpc, hx]; cases closing <;> rfl)
    rw [Function.update_eq_self] at hmoves
    exact hmoves
  | @sentinel closing hx =>
    refine ⟨[], d, .nil, h.connected, h.poisoned, h.owner, ?_, h.queue, h.senders, h.sent,
      h.received⟩
    have hmoves := @pc_setConsumer n m s d i (.inside (.handler closing)) (d.pc i) h.pc
      (by rw [hpc, hx]; cases closing <;> rfl)
    rw [Function.update_eq_self] at hmoves
    exact hmoves
  | lock hadvance =>
    have howns : (s.consumers i).critical = true → lock.owner = some (.consumer i) :=
      (hexclusive (.consumer i)).mp
    obtain ⟨d', hd', hsame⟩ := dispatches_lock h howns hadvance
    exact ⟨_, d', .snoc .nil trivial hd', hsame⟩

/-- What the loop sends reaches the dispatcher. -/
theorem dispatches_sent (h : Dispatches (lock, s) d) {sent : List BytesMsg}
    (hsame : s'.consumers = s.consumers ∧ s'.received = s.received)
    (hqueue : s'.queue = s.queue ++ sent) (hs : s'.loop.conn.s = s.loop.conn.s ++ sent) :
    ∃ ls d', Machine.Run Dispatch.step Machine.anything d ls d' ∧ Dispatches (lock, s') d' := by
  have hrun : ∀ (sent : List BytesMsg) (e : Dispatch.State n), e.senders = true →
      Machine.Run Dispatch.step Machine.anything e (sent.map .send)
        { e with queue := e.queue ++ sent, sent := e.sent ++ sent } := by
    intro sent
    induction sent with
    | nil =>
      intro e _
      simp only [List.append_nil]
      exact .nil
    | cons msg sent ih =>
      intro e he
      have hrest := ih { e with queue := e.queue ++ [msg], sent := e.sent ++ [msg] } he
      simp only [List.append_assoc, List.singleton_append] at hrest
      exact .cons trivial (by simp [Dispatch.step, he]) hrest
  obtain ⟨hconsumers, hreceived⟩ := hsame
  refine ⟨_, _, hrun sent d h.senders, h.connected, h.poisoned, h.owner, ?_, ?_, h.senders, ?_, ?_⟩
  · simp only [hconsumers]
    exact h.pc
  · rw [hqueue, h.queue]
  · rw [hs, h.sent]
  · rw [hreceived]
    exact h.received

end Steps

/-- A dispatcher answers every step of a crew by a run. -/
theorem dispatches_step {x x' : Mutex Bool (Party n m) × Crew n m} {d : Dispatch.State n}
    {a : Act n m} (h : Dispatches x d) (hexclusive : x.1.Exclusive x.2.holds)
    (hcounted : x.2.Counted) (hstep : machine json client x a = some x') :
    ∃ ls d', Machine.Run Dispatch.step Machine.anything d ls d' ∧ Dispatches x' d' := by
  obtain ⟨lock', s'⟩ := x'
  -- a step that the dispatcher does not see
  have hquiet : ∀ {s : Crew n m}, s.consumers = x.2.consumers → s.queue = x.2.queue →
      s.loop.conn.s = x.2.loop.conn.s → s.received = x.2.received →
      ∃ ls d', Machine.Run Dispatch.step Machine.anything d ls d' ∧ Dispatches (x.1, s) d' := by
    intro s hconsumers hqueue hs hreceived
    refine ⟨[], d, .nil, h.connected, h.poisoned, h.owner, ?_, h.queue.trans hqueue.symm,
      h.senders, h.sent.trans hs.symm, h.received.trans hreceived.symm⟩
    simp only [hconsumers]
    exact h.pc
  have howns : ∀ p, x.2.holds p = true → x.1.owner = some p := fun p => (hexclusive p).mp
  cases a with
  | loop l =>
    obtain ⟨s, hloop, heq⟩ := Option.map_eq_some_iff.mp hstep
    cases heq
    have hloop := loop_step hloop
    obtain ⟨sent, hs, hqueue, -⟩ := hloop.queue hcounted
    refine dispatches_sent h ?_ hqueue hs
    rw [hloop.same]
    exact ⟨rfl, rfl⟩
  | tell msg =>
    cases tell_step hstep
    exact hquiet rfl rfl rfl rfl
  | hangUp =>
    cases hstep
    exact hquiet rfl rfl rfl rfl
  | consumer i what => exact dispatches_consumer h hexclusive (consumer_step hstep)
  | producer j what =>
    cases producer_step hstep with
    | publish _ => exact hquiet rfl rfl rfl rfl
    | sentinel _ => exact hquiet rfl rfl rfl rfl
    | lock hadvance =>
      exact dispatches_other h rfl (howns (.producer j)) hadvance ⟨rfl, rfl, rfl, rfl⟩
  | waker =>
    cases waker_step hstep with
    | recv _ _ => exact hquiet rfl rfl rfl rfl
    | wake _ => exact hquiet rfl rfl rfl rfl
    | lock hadvance => exact dispatches_other h rfl (howns .waker) hadvance ⟨rfl, rfl, rfl, rfl⟩
  | control =>
    cases control_step hstep with
    | recv _ _ => exact hquiet rfl rfl rfl rfl
    | deaf _ _ _ => exact hquiet rfl rfl rfl rfl
    | send _ => exact hquiet rfl rfl rfl rfl
    | wake _ => exact hquiet rfl rfl rfl rfl
    | lock hadvance =>
      exact dispatches_other h rfl (howns .control) hadvance ⟨rfl, rfl, rfl, rfl⟩

/-! ## Runs -/

/-- The consumers of a client are a dispatcher, in every run of it. -/
theorem dispatches_run {alloc : Alloc} {clock : ℕ} {as : List (Act n m)}
    {x : Mutex Bool (Party n m) × Crew n m}
    (hrun : Machine.Run (machine json client) Machine.anything (start n m client alloc clock)
      as x) :
    ∃ ls d, Machine.Run Dispatch.step Machine.anything (.init n) ls d ∧ Dispatches x d := by
  have hstart : Dispatches (start n m client alloc clock) (.init n) :=
    ⟨rfl, rfl, rfl, rfl, rfl, rfl, rfl, rfl⟩
  have hstep : ∀ {x : Mutex Bool (Party n m) × Crew n m} {a : Act n m}
      {x' : Mutex Bool (Party n m) × Crew n m} {d : Dispatch.State n},
      (x.1.Exclusive x.2.holds ∧ x.2.Counted) ∧ Dispatches x d → Machine.anything x a →
      machine json client x a = some x' → ∃ ls d',
        Machine.Run Dispatch.step Machine.anything d ls d' ∧
          (x'.1.Exclusive x'.2.holds ∧ x'.2.Counted) ∧ Dispatches x' d' := by
    rintro x a x' d ⟨⟨hexclusive, hcounted⟩, hd⟩ - hstep
    obtain ⟨ls, d', hrun', hd'⟩ := dispatches_step hd hexclusive hcounted hstep
    exact ⟨ls, d', hrun', ⟨exclusive_step hexclusive hstep, counted_of_step hcounted hstep⟩, hd'⟩
  obtain ⟨ls, d, hdispatch, -, hd⟩ := hrun.simulate
    (fun x d => (x.1.Exclusive x.2.holds ∧ x.2.Counted) ∧ Dispatches x d) hstep
    ⟨⟨exclusive_start n m client alloc clock, Nat.le_refl 0⟩, hstart⟩
  exact ⟨ls, d, hdispatch, hd⟩

/-- The consumers of a client handle what its loop sent: there is a history of what they received
and handled in which the calls of `on_msg` are the messages sent, up to the first empty one, in
order and each once, `on_close` is called at most once, and no `on_msg` after the empty message. -/
theorem handles_in_order {alloc : Alloc} {clock : ℕ} {as : List (Act n m)}
    {x : Mutex Bool (Party n m) × Crew n m}
    (hrun : Machine.Run (machine json client) Machine.anything (start n m client alloc clock)
      as x) :
    ∃ log : List (Dispatch.Event n), receivedBy log = x.2.received ∧
      (Dispatch.handledOf log).map .ok <+: Dispatch.deliverable x.2.loop.conn.s ∧
      Dispatch.closesOf log ≤ 1 ∧ ∀ pre post i msg, log = pre ++ .received i msg :: post →
        msg.bytes = [] → ∀ j msg', Dispatch.Event.onMsg j msg' ∉ post := by
  obtain ⟨ls, d, hdispatch, hd⟩ := dispatches_run hrun
  have hinv : Dispatch.Inv d := hdispatch.invariant Dispatch.Inv Dispatch.inv_init
    fun _ _ _ h _ hstep => Dispatch.inv_step h hstep
  obtain ⟨hhandled, hcloses, hafter⟩ := hinv.in_order
  exact ⟨d.log, hd.received, hd.sent ▸ hhandled, hcloses, hafter⟩

end Threads

end NsqClient
