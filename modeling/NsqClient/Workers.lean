import NsqClient.Inbound
import NsqClient.Threads
import NsqClient.Validity

set_option relaxedAutoImplicit false
set_option autoImplicit false

/-!
# From the socket to the handlers

What the consumers of a client received is what its loop sent, from the first message on, and every
message but the last one reached `on_msg`.  If the last one did not, then it was empty, and the flag
is false since, or it was too short, and the mutex is poisoned since.  With the frames that the
loop takes off the bytes that arrive (`NsqClient.EventLoop.Decoded`), the calls of `on_msg` are
the message frames on the socket, in order and each once.

A thread inside the lock relies on the flag that it tested: no other thread can change it.

## Main definitions

* `NsqClient.Threads.toHandler` — what a consumer hands to `on_msg`.
* `NsqClient.Threads.Placed` — the threads inside the lock, and the flag.
* `NsqClient.Threads.Serving` — what was received fits the flag and the mutex.
* `NsqClient.Threads.Along` — a condition on the event loop as one on the crew.

## Main results

* `NsqClient.Threads.serving_step` — every step of a crew keeps it.
* `NsqClient.Threads.serving_run` — in every run some frames are taken, and the crew serves them.
-/

namespace NsqClient

namespace Threads

open Mutex (Place)

variable {n m : ℕ} {json : Json} {client : Client}

/-! ## The flag and the threads inside the lock -/

/-- What the flag is while a consumer is here. -/
def Consuming.flag : Consuming → Bool
  | recv => true
  | handler closing => !closing
  | sentinel closing => !closing

/-- Every thread inside the lock finds the flag as it has to be there, and nobody holds a mutex that
is poisoned. -/
structure Placed (x : Mutex Bool (Party n m) × Crew n m) : Prop where
  exclusive : x.1.Exclusive x.2.holds
  poisoned : x.1.poisoned = true → x.1.owner = none
  consumers : ∀ i, (x.2.consumers i).Inside fun b => x.1.value = b.flag
  producers : ∀ j, (x.2.producers j).Inside fun _ => x.1.value = true

section Placed

variable {lock lock' : Mutex Bool (Party n m)} {s s' : Crew n m}

/-- Where a consumer is inside, it finds the flag. -/
theorem Placed.consumer_flag {x : Mutex Bool (Party n m) × Crew n m} (h : Placed x) {i : Fin n}
    {b : Consuming} (hi : x.2.consumers i = .inside b) : x.1.value = b.flag := by
  have hinside := h.consumers i
  rwa [hi] at hinside

/-- Where a producer is inside, the flag is true. -/
theorem Placed.producer_flag {x : Mutex Bool (Party n m) × Crew n m} (h : Placed x) {j : Fin m}
    {b : Producing} (hj : x.2.producers j = .inside b) : x.1.value = true := by
  have hinside := h.producers j
  rwa [hj] at hinside

/-- While a consumer is inside the lock, no other consumer and no producer is. -/
theorem Placed.alone {x : Mutex Bool (Party n m) × Crew n m} (h : Placed x) {i : Fin n}
    {b : Consuming} (hi : x.2.consumers i = .inside b) :
    (∀ j b', x.2.consumers j = .inside b' → j = i) ∧ ∀ j b', x.2.producers j ≠ .inside b' := by
  have hholds : x.2.holds (.consumer i) = true := by simp [Crew.holds, hi, Place.critical]
  constructor
  · intro j b' hj
    have hother : x.2.holds (.consumer j) = true := by simp [Crew.holds, hj, Place.critical]
    cases h.exclusive.unique hholds hother
    rfl
  · intro j b' hj
    have hother : x.2.holds (.producer j) = true := by simp [Crew.holds, hj, Place.critical]
    cases h.exclusive.unique hholds hother

/-- A step of a consumer keeps the flag as the threads inside the lock found it.

**Proof sketch.** Only the message that closes changes the flag; the consumer that receives it is
inside the lock, and so no other thread is. -/
theorem Placed.consumer {i : Fin n} {what : Do} (h : Placed (lock, s))
    (hexclusive : lock'.Exclusive s'.holds)
    (hstep : ConsumerStep id lock s i what lock' s') : Placed (lock', s') := by
  have hmoves : ∀ {x : Place Empty Consuming}, (x.Inside fun b => lock.value = b.flag) →
      ∀ j, (Function.update s.consumers i x j).Inside fun b => lock.value = b.flag := by
    intro x hx
    rw [Function.forall_update_iff s.consumers fun _ x => x.Inside fun b => lock.value = b.flag]
    exact ⟨hx, fun j _ => h.consumers j⟩
  cases hstep with
  | closed hx _ _ =>
    obtain ⟨hconsumers, hproducers⟩ := h.alone hx
    refine ⟨hexclusive, h.poisoned, ?_, ?_⟩
    · apply (Function.forall_update_iff s.consumers fun _ x =>
        x.Inside fun b => false = b.flag).mpr
      refine ⟨rfl, fun j hj => ?_⟩
      cases hplace : s.consumers j with
      | inside b => exact absurd (hconsumers j b hplace) hj
      | _ => trivial
    · intro j
      cases hplace : s.producers j with
      | inside b => exact absurd hplace (hproducers j b)
      | _ => simp [Crew.setConsumer, hplace, Place.Inside]
  | short hx _ _ _ => exact ⟨hexclusive, fun _ => rfl, hmoves trivial, h.producers⟩
  | message hx _ _ _ =>
    have hflag := h.consumer_flag hx
    exact ⟨hexclusive, h.poisoned, hmoves hflag, h.producers⟩
  | @returned closing hx =>
    refine ⟨hexclusive, h.poisoned, hmoves ?_, h.producers⟩
    cases closing <;> trivial
  | sends hx =>
    have hflag := h.consumer_flag hx
    exact ⟨hexclusive, h.poisoned, hmoves hflag, h.producers⟩
  | sentinel hx =>
    have hflag := h.consumer_flag hx
    exact ⟨hexclusive, h.poisoned, hmoves hflag, h.producers⟩
  | lock hadvance =>
    have hx := hadvance.inside (Q := fun b => lock.value = b.flag) id trivial
    have hvalue := hadvance.value.1
    refine ⟨hexclusive, hadvance.poisoned h.poisoned, ?_, ?_⟩
    · simp only [hvalue]
      exact hmoves hx
    · simp only [hvalue]
      exact h.producers

/-- A step of a producer keeps the flag as the threads inside the lock found it. -/
theorem Placed.producer {j : Fin m} {what : Do} (h : Placed (lock, s))
    (hexclusive : lock'.Exclusive s'.holds)
    (hstep : ProducerStep id lock s j what lock' s') : Placed (lock', s') := by
  have hmoves : ∀ {x : Place Empty Producing}, (x.Inside fun _ => lock.value = true) →
      ∀ i, (Function.update s.producers j x i).Inside fun _ => lock.value = true := by
    intro x hx
    rw [Function.forall_update_iff s.producers fun _ x => x.Inside fun _ => lock.value = true]
    exact ⟨hx, fun i _ => h.producers i⟩
  cases hstep with
  | publish hx =>
    have hflag := h.producer_flag hx
    exact ⟨hexclusive, h.poisoned, h.consumers, hmoves hflag⟩
  | sentinel hx => exact ⟨hexclusive, h.poisoned, h.consumers, hmoves trivial⟩
  | lock hadvance =>
    have hx := hadvance.inside (Q := fun _ => lock.value = true) id trivial
    have hvalue := hadvance.value.1
    refine ⟨hexclusive, hadvance.poisoned h.poisoned, ?_, ?_⟩
    · simp only [hvalue]
      exact h.consumers
    · simp only [hvalue]
      exact hmoves hx

/-- A thread that is no worker takes a step. -/
theorem Placed.other (h : Placed (lock, s)) (hexclusive : lock'.Exclusive s'.holds)
    (hpoisoned : lock'.poisoned = true → lock'.owner = none) (hvalue : lock'.value = lock.value)
    (hconsumers : s'.consumers = s.consumers) (hproducers : s'.producers = s.producers) :
    Placed (lock', s') := by
  refine ⟨hexclusive, hpoisoned, ?_, ?_⟩
  · simp only [hconsumers, hvalue]
    exact h.consumers
  · simp only [hproducers, hvalue]
    exact h.producers

end Placed

/-- Every step of a crew keeps the flag as the threads inside the lock found it. -/
theorem placed_step {x x' : Mutex Bool (Party n m) × Crew n m} {a : Act n m} (h : Placed x)
    (hstep : machine json client x a = some x') : Placed x' := by
  have hexclusive := exclusive_step h.exclusive hstep
  cases a with
  | loop l =>
    obtain ⟨s, hloop, heq⟩ := Option.map_eq_some_iff.mp hstep
    cases heq
    have hsame := (loop_step hloop).same
    exact h.other hexclusive h.poisoned rfl (by rw [hsame]) (by rw [hsame])
  | tell msg =>
    cases tell_step hstep
    exact h.other hexclusive h.poisoned rfl rfl rfl
  | hangUp =>
    cases hstep
    exact h.other hexclusive h.poisoned rfl rfl rfl
  | consumer i what => exact h.consumer hexclusive (consumer_step hstep)
  | producer j what => exact h.producer hexclusive (producer_step hstep)
  | waker =>
    obtain ⟨lock', s'⟩ := x'
    cases waker_step hstep with
    | recv _ _ => exact h.other hexclusive h.poisoned rfl rfl rfl
    | wake _ => exact h.other hexclusive h.poisoned rfl rfl rfl
    | lock hadvance =>
      exact h.other hexclusive (hadvance.poisoned h.poisoned) hadvance.value.1 rfl rfl
  | control =>
    obtain ⟨lock', s'⟩ := x'
    cases control_step hstep with
    | recv _ _ => exact h.other hexclusive h.poisoned rfl rfl rfl
    | deaf _ _ _ => exact h.other hexclusive h.poisoned rfl rfl rfl
    | send _ => exact h.other hexclusive h.poisoned rfl rfl rfl
    | wake _ => exact h.other hexclusive h.poisoned rfl rfl rfl
    | lock hadvance =>
      exact h.other hexclusive (hadvance.poisoned h.poisoned) hadvance.value.1 rfl rfl

theorem placed_start (n m : ℕ) (client : Client) (alloc : Alloc) (clock : ℕ) :
    Placed (start n m client alloc clock) :=
  ⟨exclusive_start n m client alloc clock, nofun, fun _ => trivial, fun _ => trivial⟩

/-! ## What was received -/

/-- What a consumer hands to `on_msg`: nothing if the message is empty, and nothing if it is too
short. -/
def toHandler (msg : BytesMsg) : Option Msg :=
  if msg.bytes = [] then none else (Dispatch.consumerMsg msg).toOption

/-- No thread that comes to the lock gets inside: the flag is false, or the mutex is poisoned. -/
def Stopped (flag : Mutex Bool (Party n m)) : Prop := flag.value = false ∨ flag.poisoned = true

/-- What was received is what the loop sent, and all of it reached the handlers, except that the
last message may have stopped the workers. -/
structure Serving (x : Mutex Bool (Party n m) × Crew n m) : Prop where
  placed : Placed x
  counted : x.2.Counted
  received : x.2.received.map Prod.snd = x.2.loop.conn.s.take x.2.taken
  handled : ∃ ms ms', x.2.received.map Prod.snd = ms ++ ms' ∧
    (∀ msg ∈ ms, (toHandler msg).isSome = true) ∧
    (ms' = [] ∨ Stopped x.1 ∧ ∃ msg, ms' = [msg] ∧ toHandler msg = none)

section Serving

variable {x x' : Mutex Bool (Party n m) × Crew n m}

/-- A consumer that receives a message is not stopped. -/
theorem Placed.not_stopped (h : Placed x) {i : Fin n} (hi : x.2.consumers i = .inside .recv) :
    ¬ Stopped x.1 := by
  have hholds : x.2.holds (.consumer i) = true := by simp [Crew.holds, hi, Place.critical]
  rintro (hvalue | hpoisoned)
  · rw [h.consumer_flag hi] at hvalue
    cases hvalue
  · have howner := (h.exclusive (.consumer i)).mp hholds
    rw [h.poisoned hpoisoned] at howner
    cases howner

/-- A step in which no message is received. -/
theorem Serving.keep (h : Serving x) (hplaced : Placed x') (hcounted : x'.2.Counted)
    (hreceived : x'.2.received = x.2.received) (htaken : x'.2.taken = x.2.taken)
    (hsent : ∃ sent, x'.2.loop.conn.s = x.2.loop.conn.s ++ sent)
    (hstopped : Stopped x.1 → Stopped x'.1) : Serving x' := by
  refine ⟨hplaced, hcounted, ?_, ?_⟩
  · obtain ⟨sent, hsent⟩ := hsent
    rw [hreceived, htaken, hsent, List.take_append_of_le_length h.counted]
    exact h.received
  · obtain ⟨ms, ms', hmsgs, hms, hlast⟩ := h.handled
    rw [hreceived]
    exact ⟨ms, ms', hmsgs, hms, hlast.imp_right fun hlast => ⟨hstopped hlast.1, hlast.2⟩⟩

/-- A step in which a message is received.  It reaches the handler, or stops the workers. -/
theorem Serving.receive (h : Serving x) {i : Fin n} {msg : BytesMsg} {queue : List BytesMsg}
    (hi : x.2.consumers i = .inside .recv) (hqueue : x.2.queue = msg :: queue)
    (hplaced : Placed x') (hreceived : x'.2.received = x.2.received ++ [(i, msg)])
    (htaken : x'.2.taken = x.2.taken + 1) (hsent : x'.2.loop.conn.s = x.2.loop.conn.s)
    (hmsg : (toHandler msg).isSome = true ∨ toHandler msg = none ∧ Stopped x'.1) :
    Serving x' := by
  obtain ⟨hle, htake⟩ := take_of_queue hqueue
  obtain ⟨ms, ms', hmsgs, hms, hlast⟩ := h.handled
  obtain rfl : ms' = [] := hlast.resolve_right fun hlast => h.placed.not_stopped hi hlast.1
  rw [List.append_nil] at hmsgs
  have hmap : x'.2.received.map Prod.snd = ms ++ [msg] := by
    rw [hreceived, List.map_append, hmsgs]
    rfl
  refine ⟨hplaced, ?_, ?_, ?_⟩
  · rw [Crew.Counted, htaken, hsent]
    exact hle
  · rw [hmap, htaken, hsent, htake, ← h.received, hmsgs]
  · rcases hmsg with hsome | ⟨hnone, hstopped⟩
    · refine ⟨ms ++ [msg], [], by rw [hmap, List.append_nil], ?_, .inl rfl⟩
      intro msg' hmem
      rcases List.mem_append.mp hmem with hmem | hmem
      · exact hms msg' hmem
      · rw [List.mem_singleton.mp hmem]
        exact hsome
    · exact ⟨ms, [msg], hmap, hms, .inr ⟨hstopped, msg, rfl, hnone⟩⟩

/-- A step that concerns the lock does not start what is stopped. -/
theorem stopped_of_advanced {α β : Type} {y y' enter again : Place α β} {p : Party n m}
    {lock lock' : Mutex Bool (Party n m)} (hadvance : Place.Advanced enter again p lock y lock' y')
    (h : Stopped lock) : Stopped lock' := by
  obtain ⟨hvalue, hpoisoned⟩ := hadvance.value
  rwa [Stopped, hvalue, hpoisoned]

/-- No step starts what is stopped. -/
theorem stopped_of_step {a : Act n m} (h : Stopped x.1)
    (hstep : machine json client x a = some x') : Stopped x'.1 := by
  obtain ⟨lock', s'⟩ := x'
  cases a with
  | loop l =>
    obtain ⟨s, -, heq⟩ := Option.map_eq_some_iff.mp hstep
    cases heq
    exact h
  | tell msg =>
    cases tell_step hstep
    exact h
  | hangUp =>
    cases hstep
    exact h
  | consumer i what =>
    cases consumer_step hstep with
    | closed _ _ _ => exact .inl rfl
    | short _ _ _ _ => exact .inr rfl
    | lock hadvance => exact stopped_of_advanced hadvance h
    | _ => exact h
  | producer j what =>
    cases producer_step hstep with
    | lock hadvance => exact stopped_of_advanced hadvance h
    | _ => exact h
  | waker =>
    cases waker_step hstep with
    | lock hadvance => exact stopped_of_advanced hadvance h
    | _ => exact h
  | control =>
    cases control_step hstep with
    | lock hadvance => exact stopped_of_advanced hadvance h
    | _ => exact h

/-- A step of a crew keeps what was received. -/
theorem serving_step {a : Act n m} (h : Serving x) (hstep : machine json client x a = some x') :
    Serving x' := by
  have hplaced := placed_step h.placed hstep
  have hcounted : x'.2.Counted := counted_of_step h.counted hstep
  have hstopped : Stopped x.1 → Stopped x'.1 := fun hs => stopped_of_step hs hstep
  have hquiet : x'.2.received = x.2.received → x'.2.taken = x.2.taken →
      x'.2.loop.conn.s = x.2.loop.conn.s → Serving x' := fun hreceived htaken hs =>
    h.keep hplaced hcounted hreceived htaken ⟨[], by rw [hs, List.append_nil]⟩ hstopped
  cases a with
  | loop l =>
    obtain ⟨s, hloop, heq⟩ := Option.map_eq_some_iff.mp hstep
    cases heq
    have hloop := loop_step hloop
    obtain ⟨sent, hsent, -, -⟩ := hloop.queue h.counted
    refine h.keep hplaced hcounted ?_ ?_ ⟨sent, hsent⟩ hstopped
    · rw [hloop.same]
    · rw [hloop.same]
  | tell msg =>
    cases tell_step hstep
    exact hquiet rfl rfl rfl
  | hangUp =>
    cases hstep
    exact hquiet rfl rfl rfl
  | consumer i what =>
    obtain ⟨lock', s'⟩ := x'
    cases consumer_step hstep with
    | closed hx hqueue hnil =>
      exact h.receive hx hqueue hplaced rfl rfl rfl (.inr ⟨by simp [toHandler, hnil], .inl rfl⟩)
    | short hx hqueue hne hmsg =>
      exact h.receive hx hqueue hplaced rfl rfl rfl
        (.inr ⟨by simp [toHandler, hne, hmsg, Except.toOption], .inr rfl⟩)
    | message hx hqueue hne hmsg =>
      exact h.receive hx hqueue hplaced rfl rfl rfl
        (.inl (by simp [toHandler, hne, hmsg, Except.toOption]))
    | _ => exact hquiet rfl rfl rfl
  | producer j what =>
    obtain ⟨lock', s'⟩ := x'
    cases producer_step hstep <;> exact hquiet rfl rfl rfl
  | waker =>
    obtain ⟨lock', s'⟩ := x'
    cases waker_step hstep <;> exact hquiet rfl rfl rfl
  | control =>
    obtain ⟨lock', s'⟩ := x'
    cases control_step hstep <;> exact hquiet rfl rfl rfl

end Serving

theorem serving_start (n m : ℕ) (client : Client) (alloc : Alloc) (clock : ℕ) :
    Serving (start n m client alloc clock) :=
  ⟨placed_start n m client alloc clock, Nat.le_refl 0, rfl, [], [], rfl, nofun, .inl rfl⟩

/-! ## The handlers and the frames -/

/-- The parts of a message that come from its frame. -/
def parts (msg : Msg) : Int64 × UInt16 × String × List UInt8 :=
  (msg.timestamp, msg.attemps, msg.id, msg.body)

/-- The messages that were handed to `on_msg`. -/
def Crew.handed (s : Crew n m) : List Msg := s.received.filterMap fun r => toHandler r.2

/-- A message that reaches the handler is not empty, and has the fields of its payload. -/
theorem parts_of_toHandler {msg : BytesMsg} {x : Msg} (h : toHandler msg = some x) :
    msg.bytes ≠ [] ∧ parts x = msgFields msg.bytes := by
  unfold toHandler at h
  split_ifs at h with hne
  refine ⟨hne, ?_⟩
  cases hmsg : Dispatch.consumerMsg msg with
  | error p =>
    rw [hmsg] at h
    cases h
  | ok y =>
    rw [hmsg] at h
    cases h
    rw [← (BytesMsg.consumerMsg_ok_iff.mp hmsg).2.2]
    rfl

/-- Messages that reach the handler reach it as their payloads say. -/
theorem map_parts_filterMap {ms : List BytesMsg} (h : ∀ msg ∈ ms, (toHandler msg).isSome = true) :
    (ms.filterMap toHandler).map parts = (payloads ms).map msgFields := by
  induction ms with
  | nil => rfl
  | cons msg ms ih =>
    have ih := ih fun msg' hmem => h msg' (List.mem_cons_of_mem msg hmem)
    obtain ⟨x, hx⟩ := Option.isSome_iff_exists.mp (h msg List.mem_cons_self)
    obtain ⟨hne, hparts⟩ := parts_of_toHandler hx
    have hpayloads : payloads (msg :: ms) = msg.bytes :: payloads ms := by
      simp [payloads, hne]
    rw [hpayloads, List.map_cons, ← hparts, ← ih, List.filterMap_cons_some hx, List.map_cons]

/-- What was handed to the handlers are the messages received, or all of them but the last. -/
theorem Serving.exists_handed {x : Mutex Bool (Party n m) × Crew n m} (h : Serving x) :
    ∃ ms, ms <+: x.2.loop.conn.s ∧ (∀ msg ∈ ms, (toHandler msg).isSome = true) ∧
      x.2.handed = ms.filterMap toHandler ∧
      (¬ Stopped x.1 → x.2.queue = [] → ms = x.2.loop.conn.s) := by
  obtain ⟨ms, ms', hmsgs, hms, hlast⟩ := h.handled
  have hinit : ms ++ ms' <+: x.2.loop.conn.s := by
    rw [← hmsgs, h.received]
    exact List.take_prefix _ _
  have hhanded : x.2.handed = (ms ++ ms').filterMap toHandler := by
    rw [← hmsgs, List.filterMap_map]
    rfl
  refine ⟨ms, (List.prefix_append ms ms').trans hinit, hms, ?_, ?_⟩
  · rw [hhanded, List.filterMap_append]
    rcases hlast with rfl | ⟨-, msg, rfl, hnone⟩
    · exact List.append_nil _
    · simp [hnone]
  · intro hrunning hqueue
    obtain rfl : ms' = [] := hlast.resolve_right fun hlast => hrunning hlast.1
    have hall : x.2.loop.conn.s.length ≤ x.2.taken := List.drop_eq_nil_iff.mp hqueue
    rw [← List.append_nil ms, ← hmsgs, h.received, List.take_of_length_le hall]

/-- The calls of `on_msg` have the fields of the message frames taken, in order; all of them, when
nothing is left in the message channel and the workers are not stopped. -/
theorem Serving.handed_eq {x : Mutex Bool (Party n m) × Crew n m} {fs : List Frame} (h : Serving x)
    (hfs : EventLoop.Decoded fs x.2.loop) :
    x.2.handed.map parts <+: (messages fs).map msgFields ∧
      (¬ Stopped x.1 → x.2.queue = [] → x.2.handed.map parts = (messages fs).map msgFields) := by
  obtain ⟨ms, ⟨rest, hrest⟩, hms, hhanded, hall⟩ := h.exists_handed
  rw [hhanded, map_parts_filterMap hms, ← hfs.sent]
  constructor
  · rw [← hrest, payloads_append, List.map_append]
    exact List.prefix_append _ _
  · intro hrunning hqueue
    rw [hall hrunning hqueue]

/-- What every step of the event loop keeps, every step of a crew keeps. -/
theorem loop_invariant {I : EventLoop → Prop}
    (hI : ∀ r l r', I r → EventLoop.step json client r l = some r' → I r')
    {x x' : Mutex Bool (Party n m) × Crew n m} {a : Act n m} (h : I x.2.loop)
    (hstep : machine json client x a = some x') : I x'.2.loop := by
  rcases loop_of_step hstep with hsame | ⟨l, -, hloop⟩
  · rw [hsame]
    exact h
  · exact hI _ _ _ h hloop

/-! ## The loop of a crew -/

/-- The steps that the event loop takes when the crew takes one. -/
def Spurs : Act n m → EventLoop.Label → Prop
  | .loop l, l' => l' = l
  | .consumer _ (.send cmd), l' => l' = .send cmd
  | .producer _ (.send cmd), l' => l' = .send cmd
  | .control, l' => l' = .close
  | _, _ => False

/-- A condition on the steps of the event loop, as one on the steps of a crew. -/
def Along (ok : EventLoop → EventLoop.Label → Prop) (x : Mutex Bool (Party n m) × Crew n m)
    (a : Act n m) : Prop := ∀ l, Spurs a l → ok x.2.loop l

instance (ok : EventLoop → EventLoop.Label → Prop) [∀ r l, Decidable (ok r l)]
    (x : Mutex Bool (Party n m) × Crew n m) : (a : Act n m) → Decidable (Along ok x a)
  | .loop l => decidable_of_iff (ok x.2.loop l) ⟨fun h _ heq => heq ▸ h, fun h => h l rfl⟩
  | .tell _ => .isTrue (by simp [Along, Spurs])
  | .hangUp => .isTrue (by simp [Along, Spurs])
  | .consumer _ .next => .isTrue (by simp [Along, Spurs])
  | .consumer _ (.send cmd) =>
    decidable_of_iff (ok x.2.loop (.send cmd)) ⟨fun h _ heq => heq ▸ h, fun h => h _ rfl⟩
  | .producer _ .next => .isTrue (by simp [Along, Spurs])
  | .producer _ (.send cmd) =>
    decidable_of_iff (ok x.2.loop (.send cmd)) ⟨fun h _ heq => heq ▸ h, fun h => h _ rfl⟩
  | .waker => .isTrue (by simp [Along, Spurs])
  | .control => decidable_of_iff (ok x.2.loop .close) ⟨fun h _ heq => heq ▸ h, fun h => h _ rfl⟩

/-- The loop takes at most a step that the crew's step is said to lead to. -/
theorem spurs_of_step {x x' : Mutex Bool (Party n m) × Crew n m} {a : Act n m}
    (h : machine json client x a = some x') : x'.2.loop = x.2.loop ∨
      ∃ l, Spurs a l ∧ EventLoop.step json client x.2.loop l = some x'.2.loop := by
  obtain ⟨flag', s'⟩ := x'
  cases a with
  | loop l =>
    obtain ⟨s₁, hloop, heq⟩ := Option.map_eq_some_iff.mp h
    cases heq
    exact .inr ⟨l, rfl, (loop_step hloop).step⟩
  | tell msg =>
    cases tell_step h
    exact .inl rfl
  | hangUp =>
    cases h
    exact .inl rfl
  | consumer i what =>
    cases consumer_step h with
    | sends _ => exact .inr ⟨.send _, rfl, rfl⟩
    | _ => exact .inl rfl
  | producer j what =>
    cases producer_step h with
    | publish _ => exact .inr ⟨.send _, rfl, rfl⟩
    | _ => exact .inl rfl
  | waker => cases waker_step h <;> exact .inl rfl
  | control =>
    cases control_step h with
    | send _ => exact .inr ⟨.close, rfl, rfl⟩
    | _ => exact .inl rfl

/-- The event loop of a crew goes through a run of its own, under the same condition. -/
theorem loop_run_along {ok : EventLoop → EventLoop.Label → Prop} {alloc : Alloc} {clock : ℕ}
    {as : List (Act n m)} {x : Mutex Bool (Party n m) × Crew n m}
    (hrun : Machine.Run (machine json client) (Along ok) (start n m client alloc clock) as x) :
    ∃ ls, Machine.Run (EventLoop.step json client) ok (.start client [] alloc clock) ls
      x.2.loop := by
  have hstep : ∀ {x : Mutex Bool (Party n m) × Crew n m} {a : Act n m}
      {x' : Mutex Bool (Party n m) × Crew n m} {r : EventLoop}, x.2.loop = r → Along ok x a →
      machine json client x a = some x' → ∃ ls r',
        Machine.Run (EventLoop.step json client) ok r ls r' ∧ x'.2.loop = r' := by
    rintro x a x' _ rfl hok hstep
    rcases spurs_of_step hstep with hsame | ⟨l, hspurs, hloop⟩
    · exact ⟨[], _, .nil, hsame⟩
    · exact ⟨[] ++ [l], _, .snoc .nil (hok l hspurs) hloop, rfl⟩
  obtain ⟨ls, r, hloop, rfl⟩ := hrun.simulate (fun x r => x.2.loop = r) hstep rfl
  exact ⟨ls, hloop⟩

/-- In every run of a client some frames are taken, and the crew serves them. -/
theorem serving_run {alloc : Alloc} {clock : ℕ} {as : List (Act n m)}
    {x : Mutex Bool (Party n m) × Crew n m}
    (hrun : Machine.Run (machine json client) Machine.anything (start n m client alloc clock) as
      x) :
    Serving x ∧ ∃ fs, EventLoop.Decoded fs x.2.loop := by
  constructor
  · exact hrun.invariant Serving (serving_start n m client alloc clock) fun _ _ _ h _ hstep =>
      serving_step h hstep
  · have hanything : Machine.Run (machine json client) (Along Machine.anything)
        (start n m client alloc clock) as x := hrun.mono fun _ _ _ _ _ => trivial
    obtain ⟨ls, hloop⟩ := loop_run_along hanything
    exact EventLoop.decoded_run hloop

end Threads

end NsqClient
