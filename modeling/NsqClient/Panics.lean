import NsqClient.Crashes
import NsqClient.Jobs
import NsqClient.Lib.Monitor
import NsqClient.Workers

set_option relaxedAutoImplicit false
set_option autoImplicit false

/-!
# Panics of the threads

A thread of the client panics when the event loop crashes, when a consumer is handed a message that
is too short, and, once the consumer has poisoned the mutex by that, at the next lock that any
thread takes.  So the panics of a whole process are those of the event loop and those of the
messages, over any numbers of threads and all schedules; and with a server that keeps to the
protocol there are none.  The runs start after `connect`, whose own panics are another matter.

## Main definitions

* `NsqClient.BytesMsg.TooShort` — the messages that `decode_msg` panics on.
* `NsqClient.Threads.Crew.Sound` — no thread has panicked, and `run` has not exited.
* `NsqClient.Threads.Trips` — the steps at which the first thread panics.

## Main results

* `NsqClient.Threads.panics_iff` — a thread has panicked exactly if the run took such a step.
* `NsqClient.Threads.never_panics` — in a courteous environment no thread ever panics.
-/

namespace NsqClient

/-- Too short for a consumer: fewer than ten bytes, or no capacity for the sixteen of the id. -/
def BytesMsg.TooShort (m : BytesMsg) : Prop :=
  m.bytes.length < 10 ∨ m.storage.capacity (m.bytes.length - 10) < 16

/-- A consumer panics on such a message, and on no other. -/
theorem BytesMsg.tooShort_iff {m : BytesMsg} :
    m.TooShort ↔ ∃ p, Dispatch.consumerMsg m = .error p := by
  have hconsumes := consumes_iff (m := m)
  rw [TooShort]
  cases hmsg : Dispatch.consumerMsg m with
  | ok msg =>
    rw [hmsg] at hconsumes
    have hlong := hconsumes.mp ⟨msg, rfl⟩
    simp only [reduceCtorEq, exists_false, iff_false]
    omega
  | error p =>
    rw [hmsg] at hconsumes
    have hnot : ¬ (10 ≤ m.bytes.length ∧ 16 ≤ m.storage.capacity (m.bytes.length - 10)) :=
      fun hlong => by simpa using hconsumes.mpr hlong
    simp only [Except.error.injEq, exists_eq', iff_true]
    omega

/-- A message of 26 bytes is long enough. -/
theorem BytesMsg.Valid.not_tooShort {m : BytesMsg} (h : m.Valid) : ¬ m.TooShort := by
  rw [tooShort_iff, h.consumerMsg_eq]
  simp

namespace Threads

open Mutex (Place)

variable {n m : ℕ} {P : Type} {json : Json} {client : Client}

/-! ## Panics -/

/-- No thread has panicked, and `run` has not exited the process. -/
structure Crew.Sound (s : Crew n m) : Prop where
  loop : ¬ EventLoop.Crashed s.loop
  consumers : ∀ i, s.consumers i ≠ .panicked
  producers : ∀ j, s.producers j ≠ .panicked
  waker : s.waker ≠ .panicked
  control : s.control ≠ .panicked

/-- The steps at which the first thread panics: the event loop crashes, or a consumer is handed a
message that is too short. -/
inductive Trips (json : Json) (client : Client) (x : Mutex Bool (Party n m) × Crew n m) :
    Act n m → Prop where
  | loop {l : EventLoop.Label} : EventLoop.Trips json client x.2.loop l →
      Trips json client x (.loop l)
  | short {i : Fin n} {msg : BytesMsg} {queue : List BytesMsg} :
      x.2.consumers i = .inside .recv → x.2.queue = msg :: queue → msg.bytes ≠ [] →
      msg.TooShort → Trips json client x (.consumer i .next)

/-- A mutex is poisoned by a consumer that panicked. -/
def Blamed (x : Mutex Bool (Party n m) × Crew n m) : Prop :=
  x.1.poisoned = true → ∃ i, x.2.consumers i = .panicked

variable {me : Party n m → P} {flag flag' : Mutex Bool P} {s s' : Crew n m}

/-- What a consumer does leaves the other threads alone; it moves from a place where it has not
panicked. -/
theorem ConsumerStep.moved {i : Fin n} {what : Do} (h : ConsumerStep me flag s i what flag' s') :
    s.consumers i ≠ .panicked ∧ (∀ j, j ≠ i → s'.consumers j = s.consumers j) ∧
      s'.producers = s.producers ∧ s'.waker = s.waker ∧ s'.control = s.control ∧
      s'.loop.phase = s.loop.phase := by
  have hothers : ∀ (s : Crew n m) (y : Place Empty Consuming) (j : Fin n), j ≠ i →
      (s.setConsumer i y).consumers j = s.consumers j := by
    intro s y j hj
    simp [Crew.setConsumer, hj]
  cases h with
  | closed hx _ _ => exact ⟨by simp [hx], hothers _ _, rfl, rfl, rfl, rfl⟩
  | short hx _ _ _ => exact ⟨by simp [hx], hothers _ _, rfl, rfl, rfl, rfl⟩
  | message hx _ _ _ => exact ⟨by simp [hx], hothers _ _, rfl, rfl, rfl, rfl⟩
  | returned hx => exact ⟨by simp [hx], hothers _ _, rfl, rfl, rfl, rfl⟩
  | sends hx => exact ⟨by simp [hx], hothers _ _, rfl, rfl, rfl, rfl⟩
  | sentinel hx => exact ⟨by simp [hx], hothers _ _, rfl, rfl, rfl, rfl⟩
  | lock hadvance => exact ⟨hadvance.alive, hothers _ _, rfl, rfl, rfl, rfl⟩

/-- Nor does a producer touch them. -/
theorem ProducerStep.moved {j : Fin m} {what : Do} (h : ProducerStep me flag s j what flag' s') :
    s.producers j ≠ .panicked ∧ (∀ i, i ≠ j → s'.producers i = s.producers i) ∧
      s'.consumers = s.consumers ∧ s'.waker = s.waker ∧ s'.control = s.control ∧
      s'.loop.phase = s.loop.phase := by
  have hothers : ∀ (s : Crew n m) (y : Place Empty Producing) (i : Fin m), i ≠ j →
      (s.setProducer j y).producers i = s.producers i := by
    intro s y i hi
    simp [Crew.setProducer, hi]
  cases h with
  | publish hx => exact ⟨by simp [hx], hothers _ _, rfl, rfl, rfl, rfl⟩
  | sentinel hx => exact ⟨by simp [hx], hothers _ _, rfl, rfl, rfl, rfl⟩
  | lock hadvance => exact ⟨hadvance.alive, hothers _ _, rfl, rfl, rfl, rfl⟩

/-- A crash is a matter of the phase. -/
theorem crashed_of_phase {r r' : EventLoop} (hphase : r'.phase = r.phase)
    (h : EventLoop.Crashed r') : EventLoop.Crashed r := by
  unfold EventLoop.Crashed at h ⊢
  rwa [hphase] at h

/-- What has panicked stays so. -/
theorem sound_before {x x' : Mutex Bool (Party n m) × Crew n m} {a : Act n m} (h : x'.2.Sound)
    (hstep : machine json client x a = some x') : x.2.Sound := by
  obtain ⟨flag', s'⟩ := x'
  cases a with
  | loop l =>
    obtain ⟨s₁, hloop, heq⟩ := Option.map_eq_some_iff.mp hstep
    cases heq
    have hone := loop_step hloop
    refine ⟨fun hcrashed => h.loop (EventLoop.crashed_of_step hcrashed hone.step), ?_, ?_, ?_, ?_⟩
    · have hconsumers := h.consumers
      rwa [hone.same] at hconsumers
    · have hproducers := h.producers
      rwa [hone.same] at hproducers
    · have hwaker := h.waker
      rwa [hone.same] at hwaker
    · have hcontrol := h.control
      rwa [hone.same] at hcontrol
  | tell msg =>
    cases tell_step hstep
    exact ⟨h.loop, h.consumers, h.producers, h.waker, h.control⟩
  | hangUp =>
    cases hstep
    exact ⟨h.loop, h.consumers, h.producers, h.waker, h.control⟩
  | consumer i what =>
    obtain ⟨hx, hothers, hproducers, hwaker, hcontrol, hphase⟩ := (consumer_step hstep).moved
    refine ⟨fun hcrashed => h.loop (crashed_of_phase hphase.symm hcrashed), fun j => ?_, ?_, ?_, ?_⟩
    · by_cases hj : j = i
      · rw [hj]
        exact hx
      · rw [← hothers j hj]
        exact h.consumers j
    · rw [← hproducers]
      exact h.producers
    · rw [← hwaker]
      exact h.waker
    · rw [← hcontrol]
      exact h.control
  | producer j what =>
    obtain ⟨hx, hothers, hconsumers, hwaker, hcontrol, hphase⟩ := (producer_step hstep).moved
    refine ⟨fun hcrashed => h.loop (crashed_of_phase hphase.symm hcrashed), ?_, fun i => ?_, ?_, ?_⟩
    · rw [← hconsumers]
      exact h.consumers
    · by_cases hi : i = j
      · rw [hi]
        exact hx
      · rw [← hothers i hi]
        exact h.producers i
    · rw [← hwaker]
      exact h.waker
    · rw [← hcontrol]
      exact h.control
  | waker =>
    cases waker_step hstep with
    | recv hx _ => exact ⟨h.loop, h.consumers, h.producers, by simp [hx], h.control⟩
    | wake hx => exact ⟨h.loop, h.consumers, h.producers, by simp [hx], h.control⟩
    | lock hadvance => exact ⟨h.loop, h.consumers, h.producers, hadvance.alive, h.control⟩
  | control =>
    cases control_step hstep with
    | recv hx _ => exact ⟨h.loop, h.consumers, h.producers, h.waker, by simp [hx]⟩
    | deaf hx _ _ => exact ⟨h.loop, h.consumers, h.producers, h.waker, by simp [hx]⟩
    | send hx => exact ⟨h.loop, h.consumers, h.producers, h.waker, by simp [hx]⟩
    | wake hx => exact ⟨h.loop, h.consumers, h.producers, h.waker, by simp [hx]⟩
    | lock hadvance => exact ⟨h.loop, h.consumers, h.producers, h.waker, hadvance.alive⟩

/-- Every step keeps the blame. -/
theorem blamed_step {x x' : Mutex Bool (Party n m) × Crew n m} {a : Act n m} (h : Blamed x)
    (hstep : machine json client x a = some x') : Blamed x' := by
  obtain ⟨flag', s'⟩ := x'
  -- the consumer that panicked is not the one that moves
  have hkeep : flag'.poisoned = x.1.poisoned →
      (∀ j, x.2.consumers j = .panicked → s'.consumers j = .panicked) → Blamed (flag', s') := by
    intro hflag hconsumers hpoisoned
    have hpoisoned : flag'.poisoned = true := hpoisoned
    rw [hflag] at hpoisoned
    obtain ⟨j, hj⟩ := h hpoisoned
    exact ⟨j, hconsumers j hj⟩
  cases a with
  | loop l =>
    obtain ⟨s₁, hloop, heq⟩ := Option.map_eq_some_iff.mp hstep
    cases heq
    refine hkeep rfl fun j hj => ?_
    rw [(loop_step hloop).same]
    exact hj
  | tell msg =>
    cases tell_step hstep
    exact hkeep rfl fun _ hj => hj
  | hangUp =>
    cases hstep
    exact hkeep rfl fun _ hj => hj
  | consumer i what =>
    have hone := consumer_step hstep
    obtain ⟨hx, hothers, -⟩ := hone.moved
    have hsame : ∀ j, x.2.consumers j = .panicked → s'.consumers j = .panicked := by
      intro j hj
      rw [hothers j (by rintro rfl; exact hx hj)]
      exact hj
    cases hone with
    | short _ _ _ _ => exact fun _ => ⟨i, by simp [Crew.setConsumer]⟩
    | lock hadvance => exact hkeep hadvance.value.2 hsame
    | _ => exact hkeep rfl hsame
  | producer j what =>
    have hone := producer_step hstep
    obtain ⟨-, -, hconsumers, -⟩ := hone.moved
    have hsame : ∀ j, x.2.consumers j = .panicked → s'.consumers j = .panicked := by
      intro j hj
      rw [hconsumers]
      exact hj
    cases hone with
    | lock hadvance => exact hkeep hadvance.value.2 hsame
    | _ => exact hkeep rfl hsame
  | waker =>
    cases waker_step hstep with
    | lock hadvance => exact hkeep hadvance.value.2 fun _ hj => hj
    | _ => exact hkeep rfl fun _ hj => hj
  | control =>
    cases control_step hstep with
    | lock hadvance => exact hkeep hadvance.value.2 fun _ hj => hj
    | _ => exact hkeep rfl fun _ hj => hj

/-- While no thread has panicked the mutex is not poisoned. -/
theorem clean_of_sound {x : Mutex Bool (Party n m) × Crew n m} (hblamed : Blamed x)
    (h : x.2.Sound) : x.1.poisoned = false := by
  by_contra hpoisoned
  obtain ⟨i, hi⟩ := hblamed (by simpa using hpoisoned)
  exact h.consumers i hi

/-- The first consumer to panic was handed a message that is too short. -/
theorem ConsumerStep.sound_iff {i : Fin n} {what : Do}
    (h : ConsumerStep me flag s i what flag' s') (hsound : s.Sound)
    (hclean : flag.poisoned = false) : ¬ s'.Sound ↔ ∃ msg queue, what = .next ∧
      s.consumers i = .inside .recv ∧ s.queue = msg :: queue ∧ msg.bytes ≠ [] ∧ msg.TooShort := by
  obtain ⟨hx, hothers, hproducers, hwaker, hcontrol, hphase⟩ := h.moved
  have hrest : ¬ s'.Sound ↔ s'.consumers i = .panicked := by
    constructor
    · intro hnot
      by_contra hi
      refine hnot ⟨fun hcrashed => hsound.loop (crashed_of_phase hphase hcrashed), fun j => ?_, ?_,
        ?_, ?_⟩
      · by_cases hj : j = i
        · rw [hj]
          exact hi
        · rw [hothers j hj]
          exact hsound.consumers j
      · rw [hproducers]
        exact hsound.producers
      · rw [hwaker]
        exact hsound.waker
      · rw [hcontrol]
        exact hsound.control
    · intro hi hnot
      exact hnot.consumers i hi
  rw [hrest]
  -- a consumer that moves to a place where it has not panicked was handed no such message
  have hother : s'.consumers i ≠ .panicked → (∀ msg queue, s.consumers i = .inside .recv →
      s.queue = msg :: queue → msg.bytes ≠ [] → ¬ msg.TooShort) →
      (s'.consumers i = .panicked ↔ ∃ msg queue, what = .next ∧ s.consumers i = .inside .recv ∧
        s.queue = msg :: queue ∧ msg.bytes ≠ [] ∧ msg.TooShort) := by
    intro hi hlong
    refine ⟨fun hpanicked => absurd hpanicked hi, ?_⟩
    rintro ⟨msg, queue, -, hrecv, hqueue, hne, hshort⟩
    exact absurd hshort (hlong msg queue hrecv hqueue hne)
  cases h with
  | closed hrecv hqueue hnil =>
    refine hother (by simp [Crew.setConsumer]) fun msg queue _ hqueue' hne => ?_
    rw [hqueue] at hqueue'
    cases hqueue'
    exact absurd hnil hne
  | @short msg queue p hrecv hqueue hne herror =>
    exact ⟨fun _ => ⟨msg, queue, rfl, hrecv, hqueue, hne, BytesMsg.tooShort_iff.mpr ⟨p, herror⟩⟩,
      fun _ => by simp [Crew.setConsumer]⟩
  | message hrecv hqueue hne hok =>
    refine hother (by simp [Crew.setConsumer]) fun msg queue _ hqueue' _ => ?_
    rw [hqueue] at hqueue'
    cases hqueue'
    rw [BytesMsg.tooShort_iff, hok]
    simp
  | @returned closing hhandler =>
    refine hother (by cases closing <;> simp [Crew.setConsumer]) fun msg queue hrecv => ?_
    rw [hhandler] at hrecv
    cases hrecv
  | sends hhandler =>
    refine hother (by simp [Crew.setConsumer]) fun msg queue hrecv => ?_
    rw [hhandler] at hrecv
    cases hrecv
  | sentinel hsentinel =>
    refine hother (by simp [Crew.setConsumer]) fun msg queue hrecv => ?_
    rw [hsentinel] at hrecv
    cases hrecv
  | lock hadvance =>
    have halive := hadvance.unharmed hclean (by simp) (by simp)
    refine hother (by simpa [Crew.setConsumer] using halive) fun msg queue hrecv => ?_
    rw [hrecv] at hadvance
    cases hadvance

/-- A producer panics only at a mutex that is poisoned. -/
theorem ProducerStep.sound {j : Fin m} {what : Do} (h : ProducerStep me flag s j what flag' s')
    (hsound : s.Sound) (hclean : flag.poisoned = false) : s'.Sound := by
  obtain ⟨-, hothers, hconsumers, hwaker, hcontrol, hphase⟩ := h.moved
  refine ⟨fun hcrashed => hsound.loop (crashed_of_phase hphase hcrashed), ?_, fun i => ?_, ?_, ?_⟩
  · rw [hconsumers]
    exact hsound.consumers
  · by_cases hi : i = j
    · subst hi
      cases h with
      | publish _ => simp [Crew.setProducer]
      | sentinel _ => simp [Crew.setProducer]
      | lock hadvance =>
        have halive := hadvance.unharmed hclean (by simp) (by simp)
        simpa [Crew.setProducer] using halive
    · rw [hothers i hi]
      exact hsound.producers i
  · rw [hwaker]
    exact hsound.waker
  · rw [hcontrol]
    exact hsound.control

/-- So does the waker. -/
theorem WakerStep.sound (h : WakerStep me flag s flag' s') (hsound : s.Sound)
    (hclean : flag.poisoned = false) : s'.Sound := by
  cases h with
  | recv _ _ => exact ⟨hsound.loop, hsound.consumers, hsound.producers, by simp, hsound.control⟩
  | wake _ => exact ⟨hsound.loop, hsound.consumers, hsound.producers, by simp, hsound.control⟩
  | lock hadvance =>
    exact ⟨hsound.loop, hsound.consumers, hsound.producers,
      hadvance.unharmed hclean (by simp) (by simp), hsound.control⟩

/-- And the control thread. -/
theorem ControlStep.sound (h : ControlStep me flag s flag' s') (hsound : s.Sound)
    (hclean : flag.poisoned = false) : s'.Sound := by
  cases h with
  | recv _ _ => exact ⟨hsound.loop, hsound.consumers, hsound.producers, hsound.waker, by simp⟩
  | deaf _ _ _ => exact ⟨hsound.loop, hsound.consumers, hsound.producers, hsound.waker, by simp⟩
  | send _ => exact ⟨hsound.loop, hsound.consumers, hsound.producers, hsound.waker, by simp⟩
  | wake _ => exact ⟨hsound.loop, hsound.consumers, hsound.producers, hsound.waker, by simp⟩
  | lock hadvance =>
    exact ⟨hsound.loop, hsound.consumers, hsound.producers, hsound.waker,
      hadvance.unharmed hclean (by simp) (by simp)⟩

/-- The first panic comes with a step of these. -/
theorem panics_step {x x' : Mutex Bool (Party n m) × Crew n m} {a : Act n m}
    (hblamed : Blamed x) (hsendable : ∀ cmd ∈ x.2.loop.conn.r, cmd.Sendable)
    (hsound : x.2.Sound) (hstep : machine json client x a = some x') :
    ¬ x'.2.Sound ↔ Trips json client x a := by
  obtain ⟨flag', s'⟩ := x'
  have hclean := clean_of_sound hblamed hsound
  have hnone : s'.Sound → (∀ l, a ≠ .loop l) → (∀ i what, a ≠ .consumer i what) →
      (¬ s'.Sound ↔ Trips json client x a) := by
    intro hsafe hloop hconsumer
    refine ⟨fun hnot => absurd hsafe hnot, fun htrips => ?_⟩
    cases htrips with
    | loop _ => exact absurd rfl (hloop _)
    | short _ _ _ _ => exact absurd rfl (hconsumer _ _)
  cases a with
  | loop l =>
    obtain ⟨s₁, hloop, heq⟩ := Option.map_eq_some_iff.mp hstep
    cases heq
    have hone := loop_step hloop
    have hcrash := EventLoop.crashes_iff hsendable hsound.loop hone.step
    constructor
    · intro hnot
      refine .loop (hcrash.mp ?_)
      by_contra halive
      refine hnot ⟨halive, ?_, ?_, ?_, ?_⟩
      · rw [hone.same]
        exact hsound.consumers
      · rw [hone.same]
        exact hsound.producers
      · rw [hone.same]
        exact hsound.waker
      · rw [hone.same]
        exact hsound.control
    · intro htrips hsafe
      cases htrips with
      | loop htrips => exact hsafe.loop (hcrash.mpr htrips)
  | tell msg =>
    cases tell_step hstep
    exact hnone ⟨hsound.loop, hsound.consumers, hsound.producers, hsound.waker, hsound.control⟩
      (by simp) (by simp)
  | hangUp =>
    cases hstep
    exact hnone ⟨hsound.loop, hsound.consumers, hsound.producers, hsound.waker, hsound.control⟩
      (by simp) (by simp)
  | consumer i what =>
    have hone := (consumer_step hstep).sound_iff hsound hclean
    rw [hone]
    constructor
    · rintro ⟨msg, queue, rfl, hrecv, hqueue, hne, hshort⟩
      exact .short hrecv hqueue hne hshort
    · intro htrips
      cases htrips with
      | short hrecv hqueue hne hshort => exact ⟨_, _, rfl, hrecv, hqueue, hne, hshort⟩
  | producer j what => exact hnone ((producer_step hstep).sound hsound hclean) (by simp) (by simp)
  | waker => exact hnone ((waker_step hstep).sound hsound hclean) (by simp) (by simp)
  | control => exact hnone ((control_step hstep).sound hsound hclean) (by simp) (by simp)

theorem sound_start (n m : ℕ) (client : Client) (alloc : Alloc) (clock : ℕ) :
    (start n m client alloc clock).2.Sound :=
  ⟨EventLoop.not_crashed_of_plain rfl, by simp [start, Crew.start], by simp [start, Crew.start],
    by simp [start, Crew.start], by simp [start, Crew.start]⟩

/-- In every run the mutex is poisoned only by a consumer that panicked. -/
theorem blamed_run {ok : Mutex Bool (Party n m) × Crew n m → Act n m → Prop} {alloc : Alloc}
    {clock : ℕ} {as : List (Act n m)} {x : Mutex Bool (Party n m) × Crew n m}
    (hrun : Machine.Run (machine json client) ok (start n m client alloc clock) as x) :
    Blamed x :=
  hrun.invariant Blamed (fun h => absurd h (by simp [start, Mutex.init]))
    fun _ _ _ hblamed _ hstep => blamed_step hblamed hstep

/-- While the loop has not crashed, the commands in the channel are such as were sent. -/
theorem commands_of_crew {P : Cmd → Prop} {alloc : Alloc} {clock : ℕ} {as : List (Act n m)}
    {x : Mutex Bool (Party n m) × Crew n m}
    (hrun : Machine.Run (machine json client) (Along (EventLoop.Sending P))
      (start n m client alloc clock) as x)
    (halive : ¬ EventLoop.Crashed x.2.loop) : ∀ cmd ∈ x.2.loop.conn.r, P cmd := by
  obtain ⟨ls, hloop⟩ := loop_run_along hrun
  exact EventLoop.commands_run (by simp) hloop halive

/-- Over any numbers of threads, all schedules, all bytes, all allocations of the buffer and all
answers of the environment, once `connect` has succeeded: if the commands sent fit their size
fields, then a thread of the client has panicked, or `run` has exited, exactly if the run took a
step at which the event loop crashes, or one in which a consumer is handed a message, not empty, of
fewer than ten bytes or without the capacity of the sixteen after them.

**Proof sketch.** What has panicked stays so.  As long as nothing has, the mutex is not poisoned, so
no thread panics at the lock; a consumer panics at the messages that `decode_msg` cannot split, and
the loop at the steps of its own list. -/
theorem panics_iff {alloc : Alloc} {clock : ℕ} {as : List (Act n m)}
    {x : Mutex Bool (Party n m) × Crew n m}
    (hrun : Machine.Run (machine json client) (Along (EventLoop.Sending Cmd.Sendable))
      (start n m client alloc clock) as x) :
    ¬ x.2.Sound ↔ Machine.Tripped (machine json client) (Along (EventLoop.Sending Cmd.Sendable))
      (Trips json client) (start n m client alloc clock) as := by
  refine hrun.fault_iff (F := fun x => ¬ x.2.Sound) (not_not_intro (sound_start n m client alloc
    clock)) (fun hnot hstep hsound => hnot (sound_before hsound hstep)) ?_
  intro pre t a u hpre _ hsound hstep
  have hsound : t.2.Sound := not_not.mp hsound
  exact panics_step (blamed_run hpre) (commands_of_crew hpre hsound.loop) hsound hstep

set_option maxRecDepth 4000 in
/-- The server sends a message of one byte after the handshake: the consumer that gets it panics,
and the step in which it gets it is one of these. -/
theorem panics_iff_short :
    Machine.Tripped (machine EventLoop.serde ⟨"t", "c", none, 1, .default none⟩)
      (Along (EventLoop.Sending Cmd.Sendable))
      (Trips EventLoop.serde ⟨"t", "c", none, 1, .default none⟩)
      (start 1 0 ⟨"t", "c", none, 1, .default none⟩ .exact 0)
      ((EventLoop.joining ++ EventLoop.reading (Frame.ofPayload 2 [1]).wire).map .loop ++
        [.consumer 0 .next, .consumer 0 .next, .consumer 0 .next]) := by
  have hexec : Machine.exec (machine EventLoop.serde ⟨"t", "c", none, 1, .default none⟩)
      (Along (EventLoop.Sending Cmd.Sendable))
      (start 1 0 ⟨"t", "c", none, 1, .default none⟩ .exact 0)
      ((EventLoop.joining ++ EventLoop.reading (Frame.ofPayload 2 [1]).wire).map .loop ++
        [.consumer 0 .next, .consumer 0 .next, .consumer 0 .next]) = some _ := rfl
  exact (panics_iff (Machine.Run.of_exec hexec)).mp fun hsound => hsound.consumers 0 rfl

/-! ## A courteous environment -/

/-- In a courteous environment the loop stays tidy, and nothing panics. -/
theorem sound_run (hroom : client.config.outputBufferSize.toNat ≤ isizeMax) {alloc : Alloc}
    {clock : ℕ} {as : List (Act n m)} {x : Mutex Bool (Party n m) × Crew n m}
    (hrun : Machine.Run (machine json client) (Along (EventLoop.Courteous json client))
      (start n m client alloc clock) as x) :
    x.2.Sound ∧ EventLoop.Tidy x.2.loop.conn := by
  induction hrun with
  | nil =>
    have hnothing : (start n m client alloc clock).2.loop.conn.s = [] := rfl
    exact ⟨sound_start n m client alloc clock, rfl, by simp [hnothing]⟩
  | @snoc as t u a hrun hok hstep ih =>
    obtain ⟨hsound, htidy⟩ := ih
    have hcommands := commands_of_crew (P := fun cmd => cmd.Sendable ∧ ¬ cmd.Bulky)
      (hrun.mono fun x a hx l hl cmd heq => by
        have hcourteous := hx l hl
        rw [heq] at hcourteous
        exact hcourteous) hsound.loop
    have hnot : ¬ Trips json client t a := by
      intro htrips
      cases htrips with
      | loop htrips =>
        obtain ⟨ls, hloop⟩ := loop_run_along hrun
        have hconfig := (EventLoop.delivered_run (hloop.mono fun _ _ _ => trivial)
          hsound.loop).config
        exact EventLoop.not_trips htidy (by rw [hconfig]; exact hroom)
          (fun cmd hcmd => (hcommands cmd hcmd).2) (hok _ rfl) htrips
      | @short i msg queue _ hqueue hne hshort =>
        have hmem : msg ∈ t.2.loop.conn.s := by
          refine List.mem_of_mem_drop (i := t.2.taken) ?_
          rw [show t.2.loop.conn.s.drop t.2.taken = msg :: queue from hqueue]
          exact List.mem_cons_self
        exact ((htidy.sent msg hmem).resolve_left hne).not_tooShort hshort
    have hafter : u.2.Sound := by
      by_contra hfault
      exact hnot ((panics_step (blamed_run hrun) (fun cmd hcmd => (hcommands cmd hcmd).1) hsound
        hstep).mp hfault)
    refine ⟨hafter, ?_⟩
    rcases spurs_of_step hstep with hsame | ⟨l, hspurs, hloop⟩
    · rw [hsame]
      exact htidy
    · exact EventLoop.tidy_step htidy (hok l hspurs) hloop hafter.loop

/-- Over any numbers of threads, all schedules and both loops: if `poll` and the TLS library work,
the vector to read into can be allocated, no read fails, the application sends no multiple publish
of 2 GiB or more, and every read brings whole frames of a server that keeps to the protocol (the
messages have their 26 bytes, and where a response is due one with which the handshake goes on comes
last), then no thread ever panics, the process does not exit and the mutex is never poisoned. -/
theorem never_panics (hroom : client.config.outputBufferSize.toNat ≤ isizeMax) {alloc : Alloc}
    {clock : ℕ} {as : List (Act n m)} {x : Mutex Bool (Party n m) × Crew n m}
    (hrun : Machine.Run (machine json client) (Along (EventLoop.Courteous json client))
      (start n m client alloc clock) as x) :
    x.2.Sound ∧ x.1.poisoned = false :=
  ⟨(sound_run hroom hrun).1, clean_of_sound (blamed_run hrun) (sound_run hroom hrun).1⟩

/-- One frame of such a server. -/
theorem civil_frame {json : Json} {client : Client} {k : Stream} {r : EventLoop} {f : Frame}
    (hhonest : f.Honest) (hread : f.Readable) (hlong : f.isMessage = true → 26 ≤ f.payload.length)
    (hgoes : EventLoop.awaits client k r.conn.state = true →
      ¬ EventLoop.Refuses json client r.conn.state r.nsqdConfig (Conn.reply? f)) :
    EventLoop.Civil json client k r f.wire := by
  refine ⟨[f], by simp [wire], by simpa using ⟨hhonest, hread, hlong⟩, fun hawaits => ?_⟩
  have hrefuses := hgoes hawaits
  cases hreply : Conn.reply? f <;> simpa [hreply] using hrefuses

/-- A server that answers `IDENTIFY` and `SUB`, and then sends one message. -/
def Obliging (r : EventLoop) : EventLoop.Label → Prop
  | .send cmd => cmd.Sendable ∧ ¬ cmd.Bulky
  | .poll _ _ => True
  | .event io =>
    io.read = .ok [] ∨
      r.conn.state = .identify ∧
        io.read = .ok (Frame.ofPayload 0 (Utf8.asBytes (EventLoop.granted false false))).wire ∨
      r.conn.state = .subscribe ∧ io.read = .ok (Frame.ofPayload 0 (Utf8.asBytes "OK")).wire ∨
      r.conn.state = .started ∧
        io.read = .ok (Frame.ofPayload 2 (EventLoop.message "0123456789abcdef" [65])).wire
  | _ => False

instance (r : EventLoop) : (l : EventLoop.Label) → Decidable (Obliging r l)
  | .send _ => inferInstanceAs (Decidable (_ ∧ ¬ (_ ∧ _)))
  | .close => inferInstanceAs (Decidable False)
  | .poll _ _ => inferInstanceAs (Decidable True)
  | .pollFailed => inferInstanceAs (Decidable False)
  | .tls _ => inferInstanceAs (Decidable False)
  | .event _ => inferInstanceAs (Decidable (_ ∨ _ ∧ _ ∨ _ ∧ _ ∨ _ ∧ _))

/-- It causes no crash. -/
theorem courteous_of_obliging {client : Client} {r : EventLoop} {l : EventLoop.Label}
    (h : Obliging r l) : EventLoop.Courteous EventLoop.serde client r l := by
  cases l with
  | send cmd => exact h
  | close => trivial
  | poll evts now => trivial
  | pollFailed => exact h
  | tls answer => exact h.elim
  | event io =>
    intro hreadable
    have hcivil : ∀ {f : Frame}, io.read = .ok f.wire → f.Honest → f.Readable →
        (f.isMessage = true → 26 ≤ f.payload.length) →
        (∀ k, EventLoop.awaits client k r.conn.state = true →
          ¬ EventLoop.Refuses EventLoop.serde client r.conn.state r.nsqdConfig (Conn.reply? f)) →
        io.read ≠ .error .other ∧ (io.read = .error .wouldBlock → io.infoOpen = true) ∧
          ∀ k evts bs, r.phase = EventLoop.phaseOf k evts → io.read = .ok bs → bs ≠ [] →
            EventLoop.Civil EventLoop.serde client k r bs := by
      intro f hread hhonest htext hlong hgoes
      refine ⟨by simp [hread], by simp [hread], fun k evts bs _ hbs _ => ?_⟩
      rw [hread] at hbs
      cases hbs
      exact civil_frame hhonest htext hlong (hgoes k)
    rcases h with hread | ⟨hst, hread⟩ | ⟨hst, hread⟩ | ⟨hst, hread⟩
    · exact ⟨by simp [hread], by simp [hread], fun k evts bs _ hbs hne =>
        absurd (by rw [hread] at hbs; cases hbs; rfl) hne⟩
    · exact hcivil hread (by decide) (.inr (by decide)) (by decide) fun k _ => by
        rw [hst, show Conn.reply? _ = some (.response (EventLoop.granted false false)) from
          by decide]
        simp [EventLoop.Refuses, EventLoop.serde]
    · exact hcivil hread (by decide) (.inr (by decide)) (by decide) fun k _ => by
        rw [hst, show Conn.reply? _ = some (.response "OK") from by decide]
        simp [EventLoop.Refuses]
    · exact hcivil hread (by decide) (.inl (by decide)) (by decide) fun k hawaits => by
        rw [hst] at hawaits
        simp [EventLoop.awaits] at hawaits

set_option maxRecDepth 4000 in
/-- The consumer handles the message of such a server, and answers it. -/
theorem never_panics_ok : ∃ x : Mutex Bool (Party 1 1) × Crew 1 1,
    x.2.taken = 1 ∧ x.2.sentinels = 0 ∧ x.2.Sound ∧ x.1.poisoned = false := by
  have hexec : ∃ x : Mutex Bool (Party 1 1) × Crew 1 1,
      Machine.exec (machine EventLoop.serde ⟨"t", "c", none, 1, .default none⟩) (Along Obliging)
        (start 1 1 ⟨"t", "c", none, 1, .default none⟩ .exact 0) (oneJob 0) = some x ∧
      x.2.taken = 1 ∧ x.2.sentinels = 0 := ⟨_, rfl, rfl, rfl⟩
  obtain ⟨x, hrun, htaken, hsentinels⟩ := hexec
  exact ⟨x, htaken, hsentinels, never_panics (by decide) ((Machine.Run.of_exec hrun).mono
    fun _ _ h l hl => courteous_of_obliging (h l hl))⟩

end Threads

end NsqClient
