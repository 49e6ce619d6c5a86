import NsqClient.Batches

set_option relaxedAutoImplicit false
set_option autoImplicit false

/-!
# The waker and the lock

The waker takes the lock between two wake-ups, and a consumer holds it while it waits for a message.
If a handler sends a command while the waker waits for the lock, and then the lock goes to a
consumer and not to the waker, the command waits until the server sends the next message.  This is
the only way to get there, apart from a batch that is dropped with the event of the command in it.

## Main definitions

* `NsqClient.Threads.Unannounced` — a command waits, the waker is at the lock, and no event is to
  come for the command.
* `NsqClient.Threads.Stuck` — and the lock is held by a consumer that waits for a message.
* `NsqClient.Threads.Fair` — a step that does not lead there.

## Main results

* `NsqClient.Threads.not_stuck` — in a run of fair steps no wake-up is stuck.
-/

namespace NsqClient

namespace Threads

open EventLoop
open Mutex (Place)

variable {n m : ℕ} {P : Type} {json : Json} {client : Client} {me : Party n m → P}

/-- A command waits in the channel, `CLIENT_TOKEN` is not ready and has no event among the given
ones, the waker waits for the lock, and there is no message for a consumer. -/
def Unannounced (s : Crew n m) (evts : List Event) : Prop :=
  s.loop.conn.r ≠ [] ∧ s.clientReady = false ∧ ¬ Has .client evts ∧ s.waker = .lock ∧ s.queue = []

/-- `run` goes on, a command waits that nobody announces, and the lock for which the waker waits is
held by a consumer that waits for a message. -/
def Stuck (x : Mutex Bool (Party n m) × Crew n m) : Prop :=
  ¬ Over x.2.loop ∧ Unannounced x.2 x.2.loop.rest ∧
    ∃ i, x.1.owner = some (.consumer i) ∧ x.2.consumers i = .inside .recv

/-- A consumer holds the lock and is about to receive. -/
def Receiving (flag : Mutex Bool P) (s : Crew n m) (i : Fin n) : Prop :=
  s.consumers i = .test ∧ flag.value = true ∨ s.consumers i = .inside .recv

/-- While a command is unannounced, `run` goes on and the flag is true, no consumer takes the lock;
and while a consumer is about to receive the loop does not leave a batch with the event of a command
in it that would be unannounced then. -/
def Fair (json : Json) (x : Mutex Bool (Party n m) × Crew n m) : Act n m → Prop
  | .consumer i _ =>
    x.2.consumers i = .lock → x.1.owner = none → x.1.value = true → ¬ Over x.2.loop →
      ¬ Unannounced x.2 x.2.loop.rest
  | .loop (.event io) =>
    ∀ i k e evts, Receiving x.1 x.2 i → x.2.loop.phase = phaseOf k (e :: evts) →
      e = ⟨.connection, .readable⟩ → Breaks json k x.2.loop io → Has .client evts →
      ¬ Unannounced x.2 []
  | _ => True

/-- While a consumer is about to receive no command is unannounced. -/
def Attended (x : Mutex Bool (Party n m) × Crew n m) : Prop :=
  Over x.2.loop ∨ ∀ i, Receiving x.1 x.2 i → ¬ Unannounced x.2 x.2.loop.rest

theorem Receiving.holds {flag : Mutex Bool P} {s : Crew n m} {i : Fin n}
    (h : Receiving flag s i) : s.holds (.consumer i) = true := by
  rw [Crew.holds]
  rcases h with ⟨h, -⟩ | h <;> rw [h] <;> rfl

/-- Who is about to receive was so before a step that leaves the consumers and the flag alone. -/
theorem Receiving.before {flag flag' : Mutex Bool P} {s s' : Crew n m} {i : Fin n}
    (h : Receiving flag' s' i) (hvalue : flag'.value = flag.value)
    (hconsumers : s'.consumers = s.consumers) : Receiving flag s i := by
  rw [Receiving, hvalue, hconsumers] at h
  exact h

/-! ## Steps -/

/-- More messages leave less unannounced. -/
theorem queue_of_sent {s s' : Crew n m} {sent : List BytesMsg} (htaken : s'.taken = s.taken)
    (hs : s'.loop.conn.s = s.loop.conn.s ++ sent) (hqueue : s'.queue = []) : s.queue = [] := by
  rw [Crew.queue, htaken, hs, List.drop_append] at hqueue
  exact (List.append_eq_nil_iff.mp hqueue).1

/-- What is unannounced after a fair step of the loop was so before. -/
theorem unannounced_of_loop {s s' : Crew n m} {l : Label} {lock : Mutex Bool (Party n m)}
    {i : Fin n} (hi : Receiving lock s i) (hstep : LoopStep json client s l s')
    (hfair : Fair json (lock, s) (.loop l))
    (hrunning : ¬ Over s'.loop) (h : Unannounced s' s'.loop.rest) :
    Unannounced s s.loop.rest := by
  obtain ⟨hcmds, hready, hhas, hwaker, hqueue⟩ := h
  obtain ⟨sent, hs, -⟩ := sent_of_step hstep.step
  have htaken : s'.taken = s.taken := by rw [hstep.same]
  have hclient : s'.clientReady = (s.clientReady && !delivers .client l) := by rw [hstep.same]
  have hwaker' : s'.waker = s.waker := by rw [hstep.same]
  have hqueue := queue_of_sent htaken hs hqueue
  rw [hwaker'] at hwaker
  rw [hclient] at hready
  have hloop := hstep.step
  generalize s'.loop = r at hloop hcmds hhas hrunning
  cases l with
  | send cmd => exact absurd rfl (hstep.inner.1 cmd)
  | close => exact absurd rfl hstep.inner.2
  | pollFailed =>
    cases step_outcome hloop with
    | pollFailed => exact absurd ⟨_, rfl⟩ hrunning
  | poll evts now =>
    have hpoll : r.rest = evts → s.loop.rest = [] → r.conn.r = s.loop.conn.r →
        Unannounced s s.loop.rest := by
      intro hrest hnil hsame
      rw [hrest] at hhas
      rw [hsame] at hcmds
      rw [hnil]
      refine ⟨hcmds, ?_, not_has_nil, hwaker, hqueue⟩
      by_contra hready'
      have htrue : s.clientReady = true := Bool.eq_true_of_not_eq_false hready'
      rcases @ready_or_has .client evts now _ htrue with htrue | hhas'
      · rw [hready] at htrue
        cases htrue
      · exact hhas hhas'
    cases step_outcome hloop with
    | pollPlain hphase _ _ => exact hpoll rfl (rest_of_phase (k := .plain) hphase) rfl
    | pollTls hphase => exact hpoll rfl (rest_of_phase (k := .tls) hphase) rfl
  | tls answer =>
    cases step_outcome hloop with
    | tls hphase =>
      have hrest : s.loop.rest = [] := by
        rcases hphase with ⟨hphase, -⟩ | hphase
        · exact rest_of_phase (k := .plain) hphase
        · simp [EventLoop.rest, hphase]
      rw [hrest]
      refine ⟨?_, by simpa [delivers] using hready, not_has_nil, hwaker, hqueue⟩
      cases answer <;> exact hcmds
  | event io =>
    obtain ⟨k, e, evts, hphase, rfl⟩ := exists_event_of_step hloop
    rw [rest_of_phase hphase]
    rcases passed_of_event (onEvent_outcome json client k io e s.loop) evts with
      hover | hpassed
    · exact absurd hover hrunning
    · have hready : s.clientReady = false := by simpa [delivers] using hready
      have hbefore : s.loop.conn.r ≠ [] := by
        rcases hpassed.commands with hsame | hnil
        · exact hsame ▸ hcmds
        · exact absurd hnil hcmds
      refine ⟨hbefore, hready, fun hhas' => ?_, hwaker, hqueue⟩
      rcases has_cons hhas' with htoken | hhas'
      · exact hcmds (hpassed.drained htoken)
      · rcases hpassed.rest with hgoes | ⟨-, he, hbreaks⟩
        · rw [hgoes] at hhas
          exact hhas hhas'
        · exact hfair i k e evts hi hphase he hbreaks hhas'
            ⟨hbefore, hready, not_has_nil, hwaker, hqueue⟩

/-- A consumer gets to where it receives by taking the lock, or it was there before; and nothing
else changes then. -/
theorem receiving_of_consumer {flag flag' : Mutex Bool P} {s s' : Crew n m} {i j : Fin n}
    {what : Do} (h : ConsumerStep me flag s i what flag' s') (hj : Receiving flag' s' j) :
    (j ≠ i ∧ Receiving flag s j) ∨ j = i ∧ s'.loop = s.loop ∧
      s' = s.setConsumer i (s'.consumers i) ∧
      (s.consumers i = .lock ∧ flag.owner = none ∧ flag.value = true ∨ Receiving flag s i) := by
  by_cases hji : j = i
  · subst hji
    refine .inr ⟨rfl, ?_⟩
    cases h with
    | @lock _ x hadvance =>
      have hx : x = .test ∧ flag'.value = true ∨ x = .inside .recv := by
        simpa [Receiving, Crew.setConsumer] using hj
      refine ⟨rfl, by simp [Crew.setConsumer], ?_⟩
      generalize hy : s.consumers j = y at hadvance
      cases hadvance with
      | acquire hnone _ =>
        rcases hx with ⟨-, hvalue⟩ | hx
        · exact .inl ⟨rfl, hnone, hvalue⟩
        · cases hx
      | go hvalue => exact .inr (.inl ⟨hy, hvalue⟩)
      | _ => rcases hx with ⟨hx, -⟩ | hx <;> cases hx
    | @returned closing hx =>
      exfalso
      cases closing <;> simp [Receiving, Crew.setConsumer] at hj
    | _ =>
      exfalso
      simp [Receiving, Crew.setConsumer] at hj
  · refine .inl ⟨hji, ?_⟩
    cases h with
    | closed _ _ _ => exact .inr (by simpa [Receiving, Crew.setConsumer, hji] using hj)
    | lock hadvance =>
      rw [Receiving, hadvance.value.1] at hj
      simpa [Receiving, Crew.setConsumer, hji] using hj
    | _ => simpa [Receiving, Crew.setConsumer, Crew.push, hji] using hj

/-- A fair step keeps the consumers attended.

**Proof sketch.**  While a consumer is about to receive it holds the lock, so no worker sends a
command, and the waker does not get past the lock; if it comes to the lock then it has just made
`CLIENT_TOKEN` ready.  The loop takes the readiness into a batch, and there it writes the commands.
A consumer that takes the lock is fair. -/
theorem attended_step {x x' : Mutex Bool (Party n m) × Crew n m} {a : Act n m}
    (h : Attended x) (hexclusive : x.1.Exclusive x.2.holds) (hfair : Fair json x a)
    (hstep : machine json client x a = some x') : Attended x' := by
  obtain ⟨lock', s'⟩ := x'
  by_cases hover : Over x.2.loop
  · rcases loop_of_step hstep with hsame | ⟨l, -, hl⟩
    · rw [Attended, hsame]
      exact .inl hover
    · exact .inl (over_of_step hover hl)
  · have h := h.resolve_left hover
    by_cases hrunning : Over s'.loop
    · exact .inl hrunning
    · refine .inr fun i hi => ?_
      cases a with
      | loop l =>
        obtain ⟨s, hloop, heq⟩ := Option.map_eq_some_iff.mp hstep
        cases heq
        have hloop := loop_step hloop
        have hbefore : Receiving x.1 x.2 i := hi.before rfl (by rw [hloop.same])
        exact fun hun => h i hbefore (unannounced_of_loop hbefore hloop hfair hrunning hun)
      | tell msg =>
        cases tell_step hstep
        exact h i hi
      | hangUp =>
        cases hstep
        exact h i hi
      | consumer j what =>
        have hconsumer := consumer_step hstep
        rcases receiving_of_consumer hconsumer hi with
          ⟨hij, hbefore⟩ | ⟨rfl, hloop, hsame, hplace⟩
        · exact absurd (Party.consumer.inj (hconsumer.alone hexclusive hbefore.holds)) hij
        · rw [hloop, hsame]
          rcases hplace with ⟨hlock, hnone, hvalue⟩ | hbefore
          · exact hfair hlock hnone hvalue hover
          · exact h i hbefore
      | producer j what =>
        have hproducer := producer_step hstep
        have hbefore : Receiving x.1 x.2 i := by
          cases hproducer with
          | lock hadvance => exact hi.before hadvance.value.1 rfl
          | _ => exact hi
        cases hproducer.alone hexclusive hbefore.holds
      | waker =>
        have hwaker := waker_step hstep
        have hbefore : Receiving x.1 x.2 i := by
          cases hwaker with
          | lock hadvance => exact hi.before hadvance.value.1 rfl
          | _ => exact hi
        rintro ⟨-, hready, -, hlock, -⟩
        cases hwaker with
        | recv _ _ => cases hlock
        | wake _ => cases hready
        | lock hadvance =>
          have hne : (Party.waker : Party n m) ≠ .consumer i := nofun
          exact hexclusive.blocks hbefore.holds hne rfl hadvance
      | control =>
        cases control_step hstep with
        | lock hadvance => exact h i (hi.before hadvance.value.1 rfl)
        | _ => exact h i hi

theorem attended_start (n m : ℕ) (client : Client) (alloc : Alloc) (clock : ℕ) :
    Attended (start n m client alloc clock) := by
  refine .inr fun i hi => ?_
  rcases hi with ⟨hi, -⟩ | hi <;> cases hi

/-- No wake-up is stuck.  Take any run of the client, with any numbers of consumer and producer
threads and their calls of `Context::send`, the lock given to any thread that waits for it, as long
as each step is fair.  While `run` goes on there is never a command in the channel that nobody
announces, with the waker waiting for the lock and the lock held by a consumer that waits for a
message. -/
theorem not_stuck {alloc : Alloc} {clock : ℕ} {as : List (Act n m)}
    {x : Mutex Bool (Party n m) × Crew n m}
    (hrun : Machine.Run (machine json client) (Fair json) (start n m client alloc clock) as x) :
    ¬ Stuck x := by
  have hboth : x.1.Exclusive x.2.holds ∧ Attended x := by
    refine hrun.invariant (fun x => x.1.Exclusive x.2.holds ∧ Attended x)
      ⟨exclusive_start n m client alloc clock, attended_start n m client alloc clock⟩ ?_
    rintro x a x' ⟨hexclusive, hattended⟩ hfair hstep
    exact ⟨exclusive_step hexclusive hstep, attended_step hattended hexclusive hfair hstep⟩
  rintro ⟨hrunning, hunannounced, i, -, hi⟩
  exact hboth.2.resolve_left hrunning i (.inr hi) hunannounced

/-- A simple way to be fair: a consumer that comes to the lock finds that no command waits, and
every event is the last of its batch. -/
def Relaxed (x : Mutex Bool (Party n m) × Crew n m) : Act n m → Prop
  | .consumer i _ => x.2.consumers i = .lock → x.2.loop.conn.r = []
  | .loop (.event _) => x.2.loop.rest.length ≤ 1
  | _ => True

theorem Relaxed.fair {x : Mutex Bool (Party n m) × Crew n m} {a : Act n m} (h : Relaxed x a) :
    Fair json x a := by
  unfold Fair
  split
  · exact fun hlock _ _ _ hun => hun.1 (h hlock)
  · intro i k e evts _ hphase _ _ hhas
    have hlast : x.2.loop.rest.length ≤ 1 := h
    rw [rest_of_phase hphase, List.length_cons] at hlast
    rw [List.length_eq_zero_iff.mp (by omega : evts.length = 0)] at hhas
    exact absurd hhas not_has_nil
  · trivial

instance (x : Mutex Bool (Party n m) × Crew n m) : (a : Act n m) → Decidable (Relaxed x a)
  | .consumer _ _ => inferInstanceAs (Decidable (_ → _))
  | .loop (.event _) => inferInstanceAs (Decidable (_ ≤ _))
  | .loop (.poll _ _) | .loop .pollFailed | .loop (.tls _) | .loop (.send _) | .loop .close
  | .tell _ | .hangUp | .producer _ _ | .waker | .control => .isTrue trivial

set_option maxRecDepth 4000 in
/-- The loop writes the command while the waker waits for the lock; and the lock goes to the
consumer again, which waits for the next message. -/
theorem not_stuck_first :
    ∃ x : Mutex Bool (Party 1 0) × Crew 1 0,
      x.2.waker = .lock ∧ x.1.owner = some (.consumer 0) ∧ x.2.consumers 0 = .inside .recv ∧
      .user .started (NsqCmd.touch "0123456789abcdef").asCmd ∈ x.2.loop.conn.log ∧ ¬ Stuck x := by
  have hexec : Machine.exec (machine serde ⟨"t", "c", none, 1, .default none⟩) Relaxed
      (start 1 0 ⟨"t", "c", none, 1, .default none⟩ .exact 0)
      (handling 0 (NsqCmd.touch "0123456789abcdef").asCmd ++
        [.consumer 0 .next, .consumer 0 .next, .consumer 0 .next, .consumer 0 .next]) =
      some _ := rfl
  have hrun := (Machine.Run.of_exec hexec).mono fun x a h => (h.fair : Fair serde x a)
  exact ⟨_, rfl, rfl, rfl, by decide, not_stuck hrun⟩

set_option maxRecDepth 4000 in
/-- The handler sends another command before it returns, and the lock goes to the consumer again:
the second command waits for the next message. -/
theorem stuck_after_message :
    ∃ x : Mutex Bool (Party 1 0) × Crew 1 0,
      Machine.Run (machine serde ⟨"t", "c", none, 1, .default none⟩) Mio
        (start 1 0 ⟨"t", "c", none, 1, .default none⟩ .exact 0)
        (handling 0 (NsqCmd.touch "0123456789abcdef").asCmd ++
          [.consumer 0 (.send (NsqCmd.fin "0123456789abcdef").asCmd), .consumer 0 .next,
            .consumer 0 .next, .consumer 0 .next, .consumer 0 .next, .consumer 0 .next]) x ∧
      Stuck x := by
  refine ⟨_, Machine.Run.of_exec rfl, ?_, ⟨by decide, rfl, ?_, rfl, rfl⟩, 0, rfl, rfl⟩
  · rintro ⟨halt, hdone⟩
    cases hdone
  · rintro ⟨e, he, -⟩
    cases he

end Threads

end NsqClient
