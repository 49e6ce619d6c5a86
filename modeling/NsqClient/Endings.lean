import NsqClient.Threads
import NsqClient.Validity

set_option relaxedAutoImplicit false
set_option autoImplicit false

/-!
# The end of `run` and the workers

The workers stop when they find `CONNECTED` false, and only a consumer makes it false, when it
receives the empty message.  Both ways in which `run` closes send that message, and a client with a
consumer stops then.  A failed TLS handshake and a read error send nothing, a client without
consumers has nobody to receive it, and a message that is too short poisons the mutex.

## Main definitions

* `NsqClient.Threads.Ended` — `run` has ended, and the process has not.
* `NsqClient.Threads.Told` — the workers know that, or they will.
* `NsqClient.Threads.Graceful` — a step that ends `run` only after the empty message, and gives no
  consumer a message that is too short.

## Main results

* `NsqClient.Threads.workers_told` — after a run of graceful steps the workers are told.
-/

namespace NsqClient

namespace Threads

open EventLoop
open Mutex (Place)

variable {n m : ℕ} {json : Json} {client : Client} {s s' : Crew n m}

/-- `run` has ended, by a return or a panic. -/
def Ended (r : EventLoop) : Prop := ∃ h, r.phase = .done h ∧ h ≠ .exited

/-- A consumer that has not left its loop and is not closing. -/
def Receives : Place Empty Consuming → Prop
  | .inside (.handler true) => False
  | .inside (.sentinel true) => False
  | x => x.left = false

/-- `CONNECTED` is false, or the message channel holds an empty message that a consumer can still
receive. -/
def Told (x : Mutex Bool (Party n m) × Crew n m) : Prop :=
  x.1.value = false ∨ x.1.poisoned = false ∧ (∃ msg ∈ x.2.queue, msg.bytes = []) ∧
    ∃ i, Receives (x.2.consumers i)

/-- An empty message was sent to the message channel. -/
def Closed (r : EventLoop) : Prop := ∃ msg ∈ r.conn.s, msg.bytes = []

/-- If the step ends `run`, it handles a request to close or an empty message was sent before; and a
consumer receives no message that is neither empty nor long enough. -/
def Graceful (json : Json) (client : Client) (x : Mutex Bool (Party n m) × Crew n m) :
    Act n m → Prop
  | .loop l =>
    ∀ r, EventLoop.step json client x.2.loop l = some r → Ended r → Ended x.2.loop ∨
      Closed x.2.loop ∨ ∃ ready, x.2.loop.nextEvent = some ⟨.cmd, ready⟩ ∧ 0 < x.2.loop.rClose
  | .consumer i _ =>
    x.2.consumers i = .inside .recv → ∀ msg ∈ x.2.queue.head?, msg.bytes = [] ∨ msg.Valid
  | _ => True

/-- After the end of `run` an empty message was sent; the mutex is not poisoned; and as long as the
flag is true, no consumer has received an empty message, and all of them receive. -/
structure Accounted (x : Mutex Bool (Party n m) × Crew n m) : Prop where
  closed : Ended x.2.loop → Closed x.2.loop
  poisoned : x.1.poisoned = false
  open_ : x.1.value = true → ∀ msg ∈ x.2.loop.conn.s.take x.2.taken, msg.bytes ≠ []
  receives : x.1.value = true → ∀ i, Receives (x.2.consumers i)

/-- Then the workers are told. -/
theorem Accounted.told {x : Mutex Bool (Party n m) × Crew n m} (h : Accounted x) (hn : 0 < n)
    (hended : Ended x.2.loop) : Told x := by
  cases hvalue : x.1.value with
  | false => exact .inl hvalue
  | true =>
    obtain ⟨msg, hmsg, hnil⟩ := h.closed hended
    rw [← List.take_append_drop x.2.taken x.2.loop.conn.s] at hmsg
    refine .inr ⟨h.poisoned, ⟨msg, ?_, hnil⟩, ⟨0, hn⟩, h.receives hvalue _⟩
    rcases List.mem_append.mp hmsg with hmsg | hmsg
    · exact absurd hnil (h.open_ hvalue msg hmsg)
    · exact hmsg

/-! ## Steps -/

/-- Sending more keeps what was received. -/
theorem Accounted.grow {x : Mutex Bool (Party n m) × Crew n m} (h : Accounted x)
    (hcounted : x.2.Counted) {r : EventLoop} {sent : List BytesMsg}
    (hs : r.conn.s = x.2.loop.conn.s ++ sent)
    (hclosed : Ended r → Closed r) {s : Crew n m}
    (hsame : s.taken = x.2.taken ∧ s.consumers = x.2.consumers) (hloop : s.loop = r) :
    Accounted (x.1, s) := by
  subst hloop
  obtain ⟨htaken, hconsumers⟩ := hsame
  have htake : s.loop.conn.s.take s.taken = x.2.loop.conn.s.take x.2.taken := by
    rw [htaken, hs, List.take_append_of_le_length hcounted]
  refine ⟨hclosed, h.poisoned, ?_, ?_⟩
  · intro hvalue
    rw [htake]
    exact h.open_ hvalue
  · intro hvalue i
    rw [hconsumers]
    exact h.receives hvalue i

/-- What was sent stays so. -/
theorem closed_of_sent {r r' : EventLoop} {sent : List BytesMsg} (h : Closed r)
    (hs : r'.conn.s = r.conn.s ++ sent) : Closed r' := by
  obtain ⟨msg, hmsg, hnil⟩ := h
  refine ⟨msg, ?_, hnil⟩
  rw [hs]
  exact List.mem_append_left sent hmsg

/-- The handling of a request to close sends the empty message. -/
theorem closed_of_close {r r' : EventLoop} {l : Label} {ready : Ready}
    (hstep : EventLoop.step json client r l = some r')
    (hinner : (∀ cmd, l ≠ .send cmd) ∧ l ≠ .close)
    (hnext : r.nextEvent = some ⟨.cmd, ready⟩) (hclose : 0 < r.rClose) : Closed r' := by
  obtain ⟨k, evts, hphase⟩ := phase_of_nextEvent hnext
  obtain ⟨io, rfl, rfl⟩ := step_in_batch hphase hstep hinner
  simp only [onEvent, onClose, if_pos hclose, after]
  exact ⟨⟨0, [], .inline⟩, List.mem_append_right _ (List.mem_singleton_self _), rfl⟩

/-- A graceful step of the loop. -/
theorem accounted_of_loop {x : Mutex Bool (Party n m) × Crew n m} {l : Label} {s : Crew n m}
    (h : Accounted x) (hcounted : x.2.Counted) (hgraceful : Graceful json client x (.loop l))
    (hstep : LoopStep json client x.2 l s) : Accounted (x.1, s) := by
  obtain ⟨sent, hs, -⟩ := sent_of_step hstep.step
  refine h.grow hcounted hs (fun hended => ?_) ?_ rfl
  · rcases hgraceful s.loop hstep.step hended with hbefore | hclosed | ⟨ready, hnext, hclose⟩
    · exact closed_of_sent (h.closed hbefore) hs
    · exact closed_of_sent hclosed hs
    · exact closed_of_close hstep.step hstep.inner hnext hclose
  · rw [hstep.same]
    exact ⟨rfl, rfl⟩

/-- The place of one consumer changes. -/
theorem receives_setConsumer {i : Fin n} {y : Place Empty Consuming}
    (h : ∀ j, Receives (s.consumers j)) (hy : Receives y) (j : Fin n) :
    Receives ((s.setConsumer i y).consumers j) := by
  by_cases hji : j = i
  · subst hji
    simpa [Crew.setConsumer] using hy
  · simpa [Crew.setConsumer, hji] using h j

/-- The owner of the lock, and what the loop does not send, do not matter. -/
theorem Accounted.keep {lock lock' : Mutex Bool (Party n m)} (h : Accounted (lock, s))
    (hlock : lock'.value = lock.value ∧ lock'.poisoned = lock.poisoned)
    (hloop : s'.loop.phase = s.loop.phase ∧ s'.loop.conn.s = s.loop.conn.s)
    (htaken : s'.taken = s.taken)
    (hreceives : lock.value = true → ∀ i, Receives (s'.consumers i)) : Accounted (lock', s') := by
  obtain ⟨hvalue, hpoisoned⟩ := hlock
  obtain ⟨hphase, hs⟩ := hloop
  refine ⟨?_, hpoisoned.trans h.poisoned, ?_, ?_⟩
  · simp only [Ended, Closed, hphase, hs]
    exact h.closed
  · simp only [hvalue, hs, htaken]
    exact h.open_
  · simp only [hvalue]
    exact hreceives

/-- A step of a consumer. -/
theorem accounted_of_consumer {lock lock' : Mutex Bool (Party n m)} {i : Fin n} {what : Do}
    (h : Accounted (lock, s)) (hgraceful : Graceful json client (lock, s) (.consumer i what))
    (hstep : ConsumerStep id lock s i what lock' s') : Accounted (lock', s') := by
  -- while the flag is true no consumer is closing
  have hopen : lock.value = true → ∀ {x : Consuming} {closing : Bool}, s.consumers i = .inside x →
      (x = .handler closing ∨ x = .sentinel closing) → closing = false := by
    intro hvalue x closing hx hclosing
    have hreceives := h.receives hvalue i
    simp only [hx] at hreceives
    cases closing with
    | false => rfl
    | true => rcases hclosing with rfl | rfl <;> exact hreceives.elim
  cases hstep with
  | closed hx hqueue hnil =>
    exact ⟨h.closed, h.poisoned, nofun, nofun⟩
  | @short msg queue p hx hqueue hne hmsg =>
    have hhead : msg ∈ s.queue.head? := by rw [hqueue]; rfl
    have hvalid := (hgraceful hx msg hhead).resolve_left hne
    obtain ⟨-, x, hok⟩ := hvalid.handled
    rw [hmsg] at hok
    cases hok
  | @message msg queue x hx hqueue hne hmsg =>
    obtain ⟨-, htake⟩ := take_of_queue hqueue
    refine ⟨h.closed, h.poisoned, fun hvalue => ?_, fun hvalue => ?_⟩
    · intro msg' hmsg'
      have hmsg' : msg' ∈ s.loop.conn.s.take (s.taken + 1) := hmsg'
      rw [htake] at hmsg'
      rcases List.mem_append.mp hmsg' with hmsg' | hmsg'
      · exact h.open_ hvalue msg' hmsg'
      · rw [List.mem_singleton.mp hmsg']
        exact hne
    · exact receives_setConsumer (h.receives hvalue) rfl
  | @returned closing hx =>
    refine h.keep ⟨rfl, rfl⟩ ⟨rfl, rfl⟩ rfl fun hvalue =>
      receives_setConsumer (h.receives hvalue) ?_
    rw [hopen hvalue hx (.inl rfl)]
    rfl
  | @sends closing cmd hx =>
    refine h.keep ⟨rfl, rfl⟩ ⟨rfl, rfl⟩ rfl fun hvalue =>
      receives_setConsumer (h.receives hvalue) ?_
    rw [hopen hvalue hx (.inl rfl)]
    rfl
  | @sentinel closing hx =>
    refine h.keep ⟨rfl, rfl⟩ ⟨rfl, rfl⟩ rfl fun hvalue =>
      receives_setConsumer (h.receives hvalue) ?_
    rw [hopen hvalue hx (.inr rfl)]
    rfl
  | @lock _ y hadvance =>
    refine h.keep hadvance.value ⟨rfl, rfl⟩ rfl fun hvalue =>
      receives_setConsumer (h.receives hvalue) ?_
    have hreceives := h.receives hvalue i
    have hpoisoned := h.poisoned
    simp only at hreceives hpoisoned
    generalize s.consumers i = z at hadvance hreceives
    cases hadvance with
    | panic _ hp =>
      rw [hp] at hpoisoned
      cases hpoisoned
    | stop hv =>
      rw [hv] at hvalue
      cases hvalue
    | leave => cases hreceives
    | _ => rfl

/-- A graceful step keeps the account. -/
theorem accounted_step {x x' : Mutex Bool (Party n m) × Crew n m} {a : Act n m}
    (h : Accounted x) (hcounted : x.2.Counted) (hgraceful : Graceful json client x a)
    (hstep : machine json client x a = some x') : Accounted x' := by
  obtain ⟨lock', s'⟩ := x'
  cases a with
  | loop l =>
    obtain ⟨s, hloop, heq⟩ := Option.map_eq_some_iff.mp hstep
    cases heq
    exact accounted_of_loop h hcounted hgraceful (loop_step hloop)
  | tell msg =>
    cases tell_step hstep
    exact h.keep ⟨rfl, rfl⟩ ⟨rfl, rfl⟩ rfl h.receives
  | hangUp =>
    cases hstep
    exact h.keep ⟨rfl, rfl⟩ ⟨rfl, rfl⟩ rfl h.receives
  | consumer i what => exact accounted_of_consumer h hgraceful (consumer_step hstep)
  | producer j what =>
    cases producer_step hstep with
    | publish _ => exact h.keep ⟨rfl, rfl⟩ ⟨rfl, rfl⟩ rfl h.receives
    | sentinel _ => exact h.keep ⟨rfl, rfl⟩ ⟨rfl, rfl⟩ rfl h.receives
    | lock hadvance => exact h.keep hadvance.value ⟨rfl, rfl⟩ rfl h.receives
  | waker =>
    cases waker_step hstep with
    | recv _ _ => exact h.keep ⟨rfl, rfl⟩ ⟨rfl, rfl⟩ rfl h.receives
    | wake _ => exact h.keep ⟨rfl, rfl⟩ ⟨rfl, rfl⟩ rfl h.receives
    | lock hadvance => exact h.keep hadvance.value ⟨rfl, rfl⟩ rfl h.receives
  | control =>
    cases control_step hstep with
    | recv _ _ => exact h.keep ⟨rfl, rfl⟩ ⟨rfl, rfl⟩ rfl h.receives
    | deaf _ _ _ => exact h.keep ⟨rfl, rfl⟩ ⟨rfl, rfl⟩ rfl h.receives
    | send _ => exact h.keep ⟨rfl, rfl⟩ ⟨rfl, rfl⟩ rfl h.receives
    | wake _ => exact h.keep ⟨rfl, rfl⟩ ⟨rfl, rfl⟩ rfl h.receives
    | lock hadvance => exact h.keep hadvance.value ⟨rfl, rfl⟩ rfl h.receives

theorem accounted_start (n m : ℕ) (client : Client) (alloc : Alloc) (clock : ℕ) :
    Accounted (start n m client alloc clock) where
  closed := by
    rintro ⟨h, hdone, -⟩
    cases hdone
  poisoned := rfl
  open_ _ := nofun
  receives _ _ := rfl

/-- A consumer that waits for a message has found the flag true. -/
def Waits (x : Mutex Bool (Party n m) × Crew n m) : Prop :=
  ∀ i, x.2.consumers i = .inside .recv → x.1.value = true

/-- A step of a consumer keeps that: only one that holds the lock makes the flag false, and no other
one waits for a message then. -/
theorem waits_of_consumer {lock lock' : Mutex Bool (Party n m)} {i : Fin n} {what : Do}
    (h : Waits (lock, s)) (hexclusive : lock.Exclusive s.holds)
    (hstep : ConsumerStep id lock s i what lock' s') : Waits (lock', s') := by
  intro j hj
  by_cases hji : j = i
  · subst hji
    cases hstep with
    | @lock _ x hadvance =>
      have hx : x = .inside .recv := by simpa [Crew.setConsumer] using hj
      subst hx
      generalize s.consumers j = y at hadvance
      cases hadvance with
      | go hvalue => exact hvalue
    | @returned closing _ =>
      cases closing <;> simp [Crew.setConsumer] at hj
    | _ => simp [Crew.setConsumer] at hj
  · have hbefore : s.consumers j = .inside .recv := by
      cases hstep <;> simpa [Crew.setConsumer, Crew.push, hji] using hj
    have hvalue : lock.value = true := h j hbefore
    cases hstep with
    | closed hx _ _ =>
      have hi : s.holds (.consumer i) = true := by rw [Crew.holds, hx]; rfl
      have hj : s.holds (.consumer j) = true := by rw [Crew.holds, hbefore]; rfl
      exact absurd (Party.consumer.inj (hexclusive.unique hj hi)) hji
    | lock hadvance => exact hadvance.value.1.trans hvalue
    | _ => exact hvalue

theorem waits_step {x x' : Mutex Bool (Party n m) × Crew n m} {a : Act n m} (h : Waits x)
    (hexclusive : x.1.Exclusive x.2.holds) (hstep : machine json client x a = some x') :
    Waits x' := by
  obtain ⟨lock', s'⟩ := x'
  cases a with
  | loop l =>
    obtain ⟨s, hloop, heq⟩ := Option.map_eq_some_iff.mp hstep
    cases heq
    rw [(loop_step hloop).same]
    exact h
  | tell msg =>
    cases tell_step hstep
    exact h
  | hangUp =>
    cases hstep
    exact h
  | consumer i what => exact waits_of_consumer h hexclusive (consumer_step hstep)
  | producer j what =>
    cases producer_step hstep with
    | lock hadvance => exact fun i hi => hadvance.value.1.trans (h i hi)
    | _ => exact h
  | waker =>
    cases waker_step hstep with
    | lock hadvance => exact fun i hi => hadvance.value.1.trans (h i hi)
    | _ => exact h
  | control =>
    cases control_step hstep with
    | lock hadvance => exact fun i hi => hadvance.value.1.trans (h i hi)
    | _ => exact h

/-- The end of `run` reaches the workers.  Take any run of a client with a consumer thread, any
number of further consumer and producer threads and any schedule, as long as each step is graceful.
In every state after the end of `run` the flag is false, or the message channel holds an empty
message that a consumer can still receive; and no consumer waits for a message in vain.

**Proof sketch.**  Graceful steps end `run` only once an empty message was sent.  As long as the
flag is true nobody received it, so it is in the channel, and no consumer has left its loop, since
the mutex is not poisoned.  And while a consumer waits for a message the flag is true. -/
theorem workers_told {alloc : Alloc} {clock : ℕ} {as : List (Act n m)}
    {x : Mutex Bool (Party n m) × Crew n m} (hn : 0 < n)
    (hrun : Machine.Run (machine json client) (Graceful json client)
      (start n m client alloc clock) as x) (hended : Ended x.2.loop) :
    Told x ∧ ∀ i, x.2.consumers i = .inside .recv → x.2.queue ≠ [] := by
  have haccounted : x.2.Counted ∧ Accounted x := by
    refine hrun.invariant (fun x => x.2.Counted ∧ Accounted x)
      ⟨Nat.le_refl 0, accounted_start n m client alloc clock⟩ ?_
    rintro x a x' ⟨hcounted, haccounted⟩ hgraceful hstep
    exact ⟨counted_of_step hcounted hstep, accounted_step haccounted hcounted hgraceful hstep⟩
  have hwaits : x.1.Exclusive x.2.holds ∧ Waits x := by
    refine hrun.invariant (fun x => x.1.Exclusive x.2.holds ∧ Waits x)
      ⟨exclusive_start n m client alloc clock, fun _ _ => rfl⟩ ?_
    rintro x a x' ⟨hexclusive, hwaits⟩ - hstep
    exact ⟨exclusive_step hexclusive hstep, waits_step hwaits hexclusive hstep⟩
  have htold := haccounted.2.told hn hended
  refine ⟨htold, fun i hi hnil => ?_⟩
  rcases htold with hvalue | ⟨-, ⟨msg, hmsg, -⟩, -⟩
  · rw [hwaits.2 i hi] at hvalue
    cases hvalue
  · rw [hnil] at hmsg
    cases hmsg

/-- A request to close. -/
theorem workers_told_close :
    ∃ (json : Json) (client : Client) (x : Mutex Bool (Party 1 0) × Crew 1 0),
      Machine.Run (machine json client) (Graceful json client) (start 1 0 client .exact 0)
        [.tell .close, .control, .control, .control, .loop (.poll [⟨.cmd, .readable⟩] 0),
          .loop (.event ⟨.ok [], fun _ => .ok 0, true⟩)] x ∧
      Ended x.2.loop ∧ Told x ∧ ∀ i, x.2.consumers i = .inside .recv → x.2.queue ≠ [] := by
  have hpoll : ∀ {r : EventLoop}, r.phase = .plain [⟨.cmd, .readable⟩] → ¬ Ended r := by
    rintro r hphase ⟨h, hdone, -⟩
    rw [hphase] at hdone
    cases hdone
  have hrun : Machine.Run (machine serde ⟨"t", "c", none, 1, .default none⟩)
      (Graceful serde ⟨"t", "c", none, 1, .default none⟩)
      (start 1 0 ⟨"t", "c", none, 1, .default none⟩ .exact 0)
      [.tell .close, .control, .control, .control, .loop (.poll [⟨.cmd, .readable⟩] 0),
        .loop (.event ⟨.ok [], fun _ => .ok 0, true⟩)] _ :=
    .cons trivial rfl (.cons trivial rfl (.cons trivial rfl (.cons trivial rfl
      (.cons (fun r hr hended => absurd hended (hpoll (by cases hr; rfl))) rfl
        (.cons (fun _ _ _ => .inr (.inr ⟨.readable, rfl, by decide⟩)) rfl .nil)))))
  exact ⟨_, _, _, hrun, ⟨_, rfl, nofun⟩, workers_told (by decide) hrun ⟨_, rfl, nofun⟩⟩

set_option maxRecDepth 4000 in
/-- Ends of `run` that do not reach the workers: a TLS handshake that fails, a read error, and a
request to close without a consumer thread. -/
theorem workers_left :
    ∃ (json : Json) (client : Client),
      (∃ (as : List (Act 1 0)) (x : Mutex Bool (Party 1 0) × Crew 1 0),
        Machine.Run (machine json client) Mio (start 1 0 client .exact 0) as x ∧
        x.2.loop.phase = .done (.returned false) ∧ ¬ Told x) ∧
      (∃ (as : List (Act 1 0)) (x : Mutex Bool (Party 1 0) × Crew 1 0),
        Machine.Run (machine json client) Mio (start 1 0 client .exact 0) as x ∧
        x.2.loop.phase = .done (.panicked .socketRead) ∧ ¬ Told x) ∧
      ∃ (as : List (Act 0 1)) (x : Mutex Bool (Party 0 1) × Crew 0 1),
        Machine.Run (machine json client) Mio (start 0 1 client .exact 0) as x ∧
        x.2.loop.phase = .done (.returned true) ∧ ¬ Told x := by
  have htls : Machine.exec (machine serde ⟨"t", "c", none, 1, .default none⟩) Mio
      (start 1 0 ⟨"t", "c", none, 1, .default none⟩ .exact 0)
      ((writing ++ replying (granted true false) ++ [Label.tls .failure]).map .loop) = some _ := rfl
  have hread : Machine.exec (machine serde ⟨"t", "c", none, 1, .default none⟩) Mio
      (start 1 0 ⟨"t", "c", none, 1, .default none⟩ .exact 0)
      ((writing ++ [Label.poll [⟨.connection, .readable⟩] 0,
        .event ⟨.error .other, fun _ => .ok 0, true⟩]).map .loop) = some _ := rfl
  have hclose : Machine.exec (machine serde ⟨"t", "c", none, 1, .default none⟩) Mio
      (start 0 1 ⟨"t", "c", none, 1, .default none⟩ .exact 0)
      [.tell .close, .control, .control, .control, .loop (.poll [⟨.cmd, .readable⟩] 0),
        .loop (.event ⟨.ok [], fun _ => .ok 0, true⟩)] = some _ := rfl
  refine ⟨_, _, ⟨_, _, Machine.Run.of_exec htls, rfl, ?_⟩,
    ⟨_, _, Machine.Run.of_exec hread, rfl, ?_⟩, _, _, Machine.Run.of_exec hclose, rfl, ?_⟩
  · rintro (hvalue | ⟨-, ⟨msg, hmsg, -⟩, -⟩)
    · cases hvalue
    · cases hmsg
  · rintro (hvalue | ⟨-, ⟨msg, hmsg, -⟩, -⟩)
    · cases hvalue
    · cases hmsg
  · rintro (hvalue | ⟨-, -, i, -⟩)
    · cases hvalue
    · exact i.elim0

end Threads

end NsqClient
