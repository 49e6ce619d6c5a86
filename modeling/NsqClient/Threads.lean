import Mathlib.Logic.Function.Basic
import NsqClient.Dispatch
import NsqClient.Lib.Mutex
import NsqClient.Steps

set_option relaxedAutoImplicit false
set_option autoImplicit false

/-!
# A client with its threads

`Client::run` with everything around it (`client.rs`): the event loop, any number of consumer and
producer threads (`spawn`, `spawn_producer`), and the two threads that `run` starts, the one that
wakes the loop for a command and the one that forwards control messages.

The workers and these two threads share the flag `CONNECTED` behind its mutex, which is a static of
the process; so the flag is kept apart from the crew of one client, and the crew knows its threads
to the mutex by `me`.  A consumer holds the lock while it receives and while its handler runs.

`Context::send` is two sends, one to the command channel and one to the sentinel channel.  The
waker answers every sentinel with a `set_readiness`, and then waits for the lock.

The senders of the message channel and of the sentinel channel are also fields of `Client`, so
`recv` on these does not fail while the client lives.  The control channel has its sender with the
application, which can drop it.

## Main definitions

* `NsqClient.Threads.Crew` — the threads and channels of a client.
* `NsqClient.Threads.step` — the steps of a crew.
* `NsqClient.Threads.machine` — a client alone in the process.

## Main results

* `NsqClient.Threads.exclusive_step` — one thread holds the lock.
* `NsqClient.Threads.loop_run` — the loop goes through a run of its own.
* `NsqClient.Threads.ConsumerStep`, `NsqClient.Threads.ProducerStep`,
  `NsqClient.Threads.WakerStep`, `NsqClient.Threads.ControlStep` — what the threads can do.
-/

namespace NsqClient

namespace Threads

open Mutex (Place)

/-! ## Places -/

/-- Where a consumer thread is while it holds the lock. -/
inductive Consuming where
  /-- At `msg_ch.recv()`. -/
  | recv
  /-- In `on_msg`, or in `on_close`. -/
  | handler (closing : Bool)
  /-- In `Context::send` there, between the two sends. -/
  | sentinel (closing : Bool)
  deriving DecidableEq

/-- Where a producer thread is while it holds the lock. -/
inductive Producing where
  /-- At `boxed.publish()`, and the send to the command channel. -/
  | publish
  /-- At the send to the sentinel channel. -/
  | sentinel
  deriving DecidableEq

/-- Where the thread that wakes the loop is outside the lock. -/
inductive Waking where
  /-- At `r_sentinel.recv()`. -/
  | recv
  /-- At `set_readiness.set_readiness(..)`. -/
  | wake
  deriving DecidableEq

/-- Where the control thread is outside the lock. -/
inductive Controlling where
  /-- At `r_cmd.recv()`. -/
  | recv
  /-- At `s_close.send(1)`. -/
  | send
  /-- At `cmd_readiness.set_readiness(..)`. -/
  | wake
  deriving DecidableEq

/-- The threads that take the lock. -/
inductive Party (n m : ℕ) where
  | consumer (i : Fin n)
  | producer (j : Fin m)
  | waker
  | control
  deriving DecidableEq

/-! ## The crew -/

/-- The threads and channels of a client with `n` consumers and `m` producers.  The command channel
and the message channel are those of the loop, the second with all that was ever sent to it. -/
structure Crew (n m : ℕ) where
  loop : EventLoop
  /-- How many messages the consumers received. -/
  taken : ℕ
  /-- The messages the consumers received, and who did. -/
  received : List (Fin n × BytesMsg)
  consumers : Fin n → Place Empty Consuming
  producers : Fin m → Place Empty Producing
  waker : Place Waking Empty
  control : Place Controlling Empty
  /-- The length of the sentinel channel. -/
  sentinels : ℕ
  /-- The control channel. -/
  inCmd : List ConnMsg
  /-- The application has dropped its ends of the control channel. -/
  hungUp : Bool
  /-- `CLIENT_TOKEN` is ready, and no event was delivered for it since. -/
  clientReady : Bool
  /-- The same for `CMD_TOKEN`. -/
  cmdReady : Bool
  /-- The connection was registered, and no event was delivered for it since. -/
  armed : Bool

variable {n m : ℕ} {P : Type}

namespace Crew

/-- At the start of `run`. -/
def start (n m : ℕ) (client : Client) (alloc : Alloc) (clock : ℕ) : Crew n m where
  loop := .start client [] alloc clock
  taken := 0
  received := []
  consumers _ := .lock
  producers _ := .lock
  waker := .outside .recv
  control := .outside .recv
  sentinels := 0
  inCmd := []
  hungUp := false
  clientReady := false
  cmdReady := false
  armed := true

/-- What is in the message channel. -/
def queue (s : Crew n m) : List BytesMsg := s.loop.conn.s.drop s.taken

/-- Whether a thread holds the lock. -/
def holds (s : Crew n m) : Party n m → Bool
  | .consumer i => (s.consumers i).critical
  | .producer j => (s.producers j).critical
  | .waker => s.waker.critical
  | .control => s.control.critical

/-- A send to the command channel. -/
def push (s : Crew n m) (cmd : Cmd) : Crew n m :=
  { s with loop := { s.loop with conn := { s.loop.conn with r := s.loop.conn.r ++ [cmd] } } }

/-- Move a consumer. -/
def setConsumer (s : Crew n m) (i : Fin n) (x : Place Empty Consuming) : Crew n m :=
  { s with consumers := Function.update s.consumers i x }

/-- Move a producer. -/
def setProducer (s : Crew n m) (j : Fin m) (x : Place Empty Producing) : Crew n m :=
  { s with producers := Function.update s.producers j x }

end Crew

/-! ## Steps -/

/-- What a worker does next: the code of the application decides whether it sends a command. -/
inductive Do where
  | next
  | send (cmd : Cmd)

/-- The steps. -/
inductive Act (n m : ℕ) where
  /-- The event loop. -/
  | loop (l : EventLoop.Label)
  /-- The application sends to the control channel. -/
  | tell (msg : ConnMsg)
  /-- The application drops its ends of the control channel. -/
  | hangUp
  | consumer (i : Fin n) (what : Do)
  | producer (j : Fin m) (what : Do)
  | waker
  | control

/-- The thread that takes a step. -/
def Act.party : Act n m → Option (Party n m)
  | loop _ => none
  | tell _ => none
  | hangUp => none
  | consumer i _ => some (.consumer i)
  | producer j _ => some (.producer j)
  | waker => some .waker
  | control => some .control

/-- A consumer thread. -/
def stepConsumer (me : Party n m → P) (flag : Mutex Bool P) (s : Crew n m) (i : Fin n)
    (what : Do) : Option (Mutex Bool P × Crew n m) :=
  match s.consumers i, what with
  | .inside .recv, .next =>
    match s.queue with
    | [] => none
    | msg :: _ =>
      let s := { s with taken := s.taken + 1, received := s.received ++ [(i, msg)] }
      if msg.bytes.length = 0 then
        some ({ flag with value := false }, s.setConsumer i (.inside (.handler true)))
      else
        match Dispatch.consumerMsg msg with
        | .error _ =>
          some ({ flag with owner := none, poisoned := true }, s.setConsumer i .panicked)
        | .ok _ => some (flag, s.setConsumer i (.inside (.handler false)))
  | .inside (.handler closing), .next =>
    some (flag, s.setConsumer i (if closing then .leave else .unlock))
  | .inside (.handler closing), .send cmd =>
    some (flag, (s.push cmd).setConsumer i (.inside (.sentinel closing)))
  | .inside (.sentinel closing), .next =>
    some (flag,
      { s with sentinels := s.sentinels + 1 }.setConsumer i (.inside (.handler closing)))
  | x, .next =>
    (x.advance (.inside .recv) .lock (me (.consumer i)) flag).map fun (flag, x) =>
      (flag, s.setConsumer i x)
  | _, .send _ => none

/-- A producer thread. -/
def stepProducer (me : Party n m → P) (flag : Mutex Bool P) (s : Crew n m) (j : Fin m)
    (what : Do) : Option (Mutex Bool P × Crew n m) :=
  match s.producers j, what with
  | .inside .publish, .send cmd => some (flag, (s.push cmd).setProducer j (.inside .sentinel))
  | .inside .sentinel, .next =>
    some (flag, { s with sentinels := s.sentinels + 1 }.setProducer j .unlock)
  | x, .next =>
    (x.advance (.inside .publish) .lock (me (.producer j)) flag).map fun (flag, x) =>
      (flag, s.setProducer j x)
  | _, .send _ => none

/-- The thread that wakes the loop. -/
def stepWaker (me : Party n m → P) (flag : Mutex Bool P) (s : Crew n m) :
    Option (Mutex Bool P × Crew n m) :=
  match s.waker with
  | .outside .recv =>
    if 0 < s.sentinels then
      some (flag, { s with sentinels := s.sentinels - 1, waker := .outside .wake })
    else none
  | .outside .wake => some (flag, { s with clientReady := true, waker := .lock })
  | x =>
    (x.advance .unlock (.outside .recv) (me .waker) flag).map fun (flag, x) =>
      (flag, { s with waker := x })

/-- The control thread.  When the control channel is empty and has no other end, `recv` fails, and
the thread goes on to the lock. -/
def stepControl (me : Party n m → P) (flag : Mutex Bool P) (s : Crew n m) :
    Option (Mutex Bool P × Crew n m) :=
  match s.control with
  | .outside .recv =>
    match s.inCmd with
    | [] => if s.hungUp then some (flag, { s with control := .lock }) else none
    | _ :: inCmd => some (flag, { s with inCmd := inCmd, control := .outside .send })
  | .outside .send =>
    some (flag, { s with
      loop := { s.loop with rClose := s.loop.rClose + 1 }
      control := .outside .wake })
  | .outside .wake => some (flag, { s with cmdReady := true, control := .lock })
  | x =>
    (x.advance .unlock (.outside .recv) (me .control) flag).map fun (flag, x) =>
      (flag, { s with control := x })

/-- Whether a step of the loop is a return of `poll` with an event for a token. -/
def delivers (token : Token) : EventLoop.Label → Bool
  | .poll evts _ => evts.any fun e => e.token = token
  | _ => false

/-- Whether an event is one of the connection, and its handler, which ended as given, registered the
connection again. -/
def reregisters (io : Io) (e : Event) (r : EventLoop) (x : Except Leave EventLoop) : Bool :=
  e.token = .connection &&
    match x, io.read with
    | .ok _, _ => true
    | .error (.brk _), .ok [] => r.conn.needResponse
    | _, _ => false

/-- Whether a step of the loop registers the connection again. -/
def registers (json : Json) (client : Client) (r : EventLoop) : EventLoop.Label → Bool
  | .event io =>
    match r.phase with
    | .plain (e :: _) => reregisters io e r (EventLoop.onEvent json client .plain io e r)
    | .tls (e :: _) => reregisters io e r (EventLoop.onEvent json client .tls io e r)
    | _ => false
  | .tls answer => answer = .connected
  | _ => false

/-- The event loop.  The sends to its channels are steps of the other threads; `poll` has an event
for `CLIENT_TOKEN` or `CMD_TOKEN` only if it is ready. -/
def stepLoop (json : Json) (client : Client) (s : Crew n m) (l : EventLoop.Label) :
    Option (Crew n m) :=
  if (delivers .client l && !s.clientReady) || (delivers .cmd l && !s.cmdReady) then none
  else
    match l with
    | .send _ => none
    | .close => none
    | l => (EventLoop.step json client s.loop l).map fun r => { s with
        loop := r
        clientReady := s.clientReady && !delivers .client l
        cmdReady := s.cmdReady && !delivers .cmd l
        armed := s.armed && !delivers .connection l || registers json client s.loop l }

/-- The steps of a crew. -/
def step (json : Json) (client : Client) (me : Party n m → P) (flag : Mutex Bool P)
    (s : Crew n m) : Act n m → Option (Mutex Bool P × Crew n m)
  | .loop l => (stepLoop json client s l).map fun s => (flag, s)
  | .tell msg => if s.hungUp then none else some (flag, { s with inCmd := s.inCmd ++ [msg] })
  | .hangUp => some (flag, { s with hungUp := true })
  | .consumer i what => stepConsumer me flag s i what
  | .producer j what => stepProducer me flag s j what
  | .waker => stepWaker me flag s
  | .control => stepControl me flag s

/-- A client alone in the process. -/
def machine (json : Json) (client : Client) (x : Mutex Bool (Party n m) × Crew n m)
    (a : Act n m) : Option (Mutex Bool (Party n m) × Crew n m) :=
  step json client id x.1 x.2 a

/-- The client alone at the start of `run`. -/
def start (n m : ℕ) (client : Client) (alloc : Alloc) (clock : ℕ) :
    Mutex Bool (Party n m) × Crew n m :=
  (.init true, .start n m client alloc clock)

/-! ## What the threads can do -/

/-- The outcomes of a step of a consumer. -/
inductive ConsumerStep (me : Party n m → P) (flag : Mutex Bool P) (s : Crew n m) (i : Fin n) :
    Do → Mutex Bool P → Crew n m → Prop where
  /-- The message that closes. -/
  | closed {msg : BytesMsg} {queue : List BytesMsg} :
      s.consumers i = .inside .recv → s.queue = msg :: queue → msg.bytes = [] →
      ConsumerStep me flag s i .next { flag with value := false }
        ({ s with taken := s.taken + 1, received := s.received ++ [(i, msg)] }.setConsumer i
          (.inside (.handler true)))
  /-- A message that is too short. -/
  | short {msg : BytesMsg} {queue : List BytesMsg} {p : Panic} :
      s.consumers i = .inside .recv → s.queue = msg :: queue → msg.bytes ≠ [] →
      Dispatch.consumerMsg msg = .error p →
      ConsumerStep me flag s i .next { flag with owner := none, poisoned := true }
        ({ s with taken := s.taken + 1, received := s.received ++ [(i, msg)] }.setConsumer i
          .panicked)
  /-- A message for the handler. -/
  | message {msg : BytesMsg} {queue : List BytesMsg} {x : Msg} :
      s.consumers i = .inside .recv → s.queue = msg :: queue → msg.bytes ≠ [] →
      Dispatch.consumerMsg msg = .ok x →
      ConsumerStep me flag s i .next flag
        ({ s with taken := s.taken + 1, received := s.received ++ [(i, msg)] }.setConsumer i
          (.inside (.handler false)))
  /-- The handler returns. -/
  | returned {closing : Bool} :
      s.consumers i = .inside (.handler closing) →
      ConsumerStep me flag s i .next flag (s.setConsumer i (if closing then .leave else .unlock))
  /-- The handler sends a command. -/
  | sends {closing : Bool} {cmd : Cmd} :
      s.consumers i = .inside (.handler closing) →
      ConsumerStep me flag s i (.send cmd) flag
        ((s.push cmd).setConsumer i (.inside (.sentinel closing)))
  /-- And the sentinel. -/
  | sentinel {closing : Bool} :
      s.consumers i = .inside (.sentinel closing) →
      ConsumerStep me flag s i .next flag
        ({ s with sentinels := s.sentinels + 1 }.setConsumer i (.inside (.handler closing)))
  | lock {flag' : Mutex Bool P} {x : Place Empty Consuming} :
      Place.Advanced (.inside .recv) .lock (me (.consumer i)) flag (s.consumers i) flag' x →
      ConsumerStep me flag s i .next flag' (s.setConsumer i x)

/-- A step of a consumer has no other outcomes. -/
theorem consumer_step {me : Party n m → P} {flag flag' : Mutex Bool P} {s s' : Crew n m}
    {i : Fin n} {what : Do} (h : stepConsumer me flag s i what = some (flag', s')) :
    ConsumerStep me flag s i what flag' s' := by
  unfold stepConsumer at h
  split at h
  · rename_i hx
    split at h
    · cases h
    · rename_i msg queue hqueue
      simp only at h
      split_ifs at h with hlen
      · cases h
        exact .closed hx hqueue (List.length_eq_zero_iff.mp hlen)
      · have hne : msg.bytes ≠ [] := fun hnil => hlen (List.length_eq_zero_iff.mpr hnil)
        split at h
        · rename_i hmsg
          cases h
          exact .short hx hqueue hne hmsg
        · rename_i hmsg
          cases h
          exact .message hx hqueue hne hmsg
  · rename_i hx
    cases h
    exact .returned hx
  · rename_i hx
    cases h
    exact .sends hx
  · rename_i hx
    cases h
    exact .sentinel hx
  · obtain ⟨⟨flag₁, x⟩, hadvance, heq⟩ := Option.map_eq_some_iff.mp h
    cases heq
    exact .lock (Place.advanced hadvance)
  · cases h

/-- The outcomes of a step of a producer. -/
inductive ProducerStep (me : Party n m → P) (flag : Mutex Bool P) (s : Crew n m) (j : Fin m) :
    Do → Mutex Bool P → Crew n m → Prop where
  | publish {cmd : Cmd} :
      s.producers j = .inside .publish →
      ProducerStep me flag s j (.send cmd) flag
        ((s.push cmd).setProducer j (.inside .sentinel))
  | sentinel :
      s.producers j = .inside .sentinel →
      ProducerStep me flag s j .next flag
        ({ s with sentinels := s.sentinels + 1 }.setProducer j .unlock)
  | lock {flag' : Mutex Bool P} {x : Place Empty Producing} :
      Place.Advanced (.inside .publish) .lock (me (.producer j)) flag (s.producers j) flag' x →
      ProducerStep me flag s j .next flag' (s.setProducer j x)

/-- A step of a producer has no other outcomes. -/
theorem producer_step {me : Party n m → P} {flag flag' : Mutex Bool P} {s s' : Crew n m}
    {j : Fin m} {what : Do} (h : stepProducer me flag s j what = some (flag', s')) :
    ProducerStep me flag s j what flag' s' := by
  unfold stepProducer at h
  split at h
  · rename_i hx
    cases h
    exact .publish hx
  · rename_i hx
    cases h
    exact .sentinel hx
  · obtain ⟨⟨flag₁, x⟩, hadvance, heq⟩ := Option.map_eq_some_iff.mp h
    cases heq
    exact .lock (Place.advanced hadvance)
  · cases h

/-- The outcomes of a step of the waker. -/
inductive WakerStep (me : Party n m → P) (flag : Mutex Bool P) (s : Crew n m) :
    Mutex Bool P → Crew n m → Prop where
  | recv :
      s.waker = .outside .recv → 0 < s.sentinels →
      WakerStep me flag s flag { s with sentinels := s.sentinels - 1, waker := .outside .wake }
  | wake :
      s.waker = .outside .wake →
      WakerStep me flag s flag { s with clientReady := true, waker := .lock }
  | lock {flag' : Mutex Bool P} {x : Place Waking Empty} :
      Place.Advanced .unlock (.outside .recv) (me .waker) flag s.waker flag' x →
      WakerStep me flag s flag' { s with waker := x }

/-- A step of the waker has no other outcomes. -/
theorem waker_step {me : Party n m → P} {flag flag' : Mutex Bool P} {s s' : Crew n m}
    (h : stepWaker me flag s = some (flag', s')) : WakerStep me flag s flag' s' := by
  unfold stepWaker at h
  split at h
  · rename_i hx
    split_ifs at h with hpos
    cases h
    exact .recv hx hpos
  · rename_i hx
    cases h
    exact .wake hx
  · obtain ⟨⟨flag₁, x⟩, hadvance, heq⟩ := Option.map_eq_some_iff.mp h
    cases heq
    exact .lock (Place.advanced hadvance)

/-- The outcomes of a step of the control thread. -/
inductive ControlStep (me : Party n m → P) (flag : Mutex Bool P) (s : Crew n m) :
    Mutex Bool P → Crew n m → Prop where
  | recv {msg : ConnMsg} {inCmd : List ConnMsg} :
      s.control = .outside .recv → s.inCmd = msg :: inCmd →
      ControlStep me flag s flag { s with inCmd := inCmd, control := .outside .send }
  | deaf :
      s.control = .outside .recv → s.inCmd = [] → s.hungUp = true →
      ControlStep me flag s flag { s with control := .lock }
  | send :
      s.control = .outside .send →
      ControlStep me flag s flag { s with
        loop := { s.loop with rClose := s.loop.rClose + 1 }
        control := .outside .wake }
  | wake :
      s.control = .outside .wake →
      ControlStep me flag s flag { s with cmdReady := true, control := .lock }
  | lock {flag' : Mutex Bool P} {x : Place Controlling Empty} :
      Place.Advanced .unlock (.outside .recv) (me .control) flag s.control flag' x →
      ControlStep me flag s flag' { s with control := x }

/-- A step of the control thread has no other outcomes. -/
theorem control_step {me : Party n m → P} {flag flag' : Mutex Bool P} {s s' : Crew n m}
    (h : stepControl me flag s = some (flag', s')) : ControlStep me flag s flag' s' := by
  unfold stepControl at h
  split at h
  · rename_i hx
    split at h
    · rename_i hcmd
      split_ifs at h with hhung
      cases h
      exact .deaf hx hcmd hhung
    · rename_i msg inCmd hcmd
      cases h
      exact .recv hx hcmd
  · rename_i hx
    cases h
    exact .send hx
  · rename_i hx
    cases h
    exact .wake hx
  · obtain ⟨⟨flag₁, x⟩, hadvance, heq⟩ := Option.map_eq_some_iff.mp h
    cases heq
    exact .lock (Place.advanced hadvance)

/-- A send to the control channel. -/
theorem tell_step {json : Json} {client : Client} {me : Party n m → P} {flag : Mutex Bool P}
    {s : Crew n m} {msg : ConnMsg} {y : Mutex Bool P × Crew n m}
    (h : step json client me flag s (.tell msg) = some y) :
    y = (flag, { s with inCmd := s.inCmd ++ [msg] }) := by
  simp only [step] at h
  split_ifs at h
  cases h
  rfl

/-- The outcome of a step of the loop. -/
structure LoopStep (json : Json) (client : Client) (s : Crew n m) (l : EventLoop.Label)
    (s' : Crew n m) : Prop where
  step : EventLoop.step json client s.loop l = some s'.loop
  inner : (∀ cmd, l ≠ .send cmd) ∧ l ≠ .close
  clientDue : delivers .client l = true → s.clientReady = true
  cmdDue : delivers .cmd l = true → s.cmdReady = true
  same : s' = { s with
    loop := s'.loop
    clientReady := s.clientReady && !delivers .client l
    cmdReady := s.cmdReady && !delivers .cmd l
    armed := s.armed && !delivers .connection l || registers json client s.loop l }

/-- A step of the loop has no other outcome. -/
theorem loop_step {json : Json} {client : Client} {s s' : Crew n m} {l : EventLoop.Label}
    (h : stepLoop json client s l = some s') : LoopStep json client s l s' := by
  unfold stepLoop at h
  split_ifs at h with hready
  simp only [Bool.or_eq_true, Bool.and_eq_true, Bool.not_eq_eq_eq_not, Bool.not_true,
    not_or, not_and, Bool.not_eq_false] at hready
  cases l with
  | send cmd => cases h
  | close => cases h
  | _ =>
    obtain ⟨r, hstep, rfl⟩ := Option.map_eq_some_iff.mp h
    exact ⟨hstep, ⟨nofun, nofun⟩, hready.1, hready.2, rfl⟩

/-! ## The lock -/

@[simp] theorem Crew.holds_setConsumer (s : Crew n m) (i : Fin n) (x : Place Empty Consuming) :
    (s.setConsumer i x).holds (.consumer i) = x.critical := by
  simp [holds, setConsumer]

@[simp] theorem Crew.holds_setProducer (s : Crew n m) (j : Fin m) (x : Place Empty Producing) :
    (s.setProducer j x).holds (.producer j) = x.critical := by
  simp [holds, setProducer]

/-- The other threads stay where they are when a consumer moves. -/
theorem Crew.holds_setConsumer_ne (s : Crew n m) {i : Fin n} (x : Place Empty Consuming)
    {q : Party n m} (hq : some (Party.consumer i) ≠ some q) :
    (s.setConsumer i x).holds q = s.holds q := by
  cases q with
  | consumer j =>
    have hne : j ≠ i := fun h => hq (by rw [h])
    simp [holds, setConsumer, hne]
  | _ => rfl

/-- The other threads stay where they are when a producer moves. -/
theorem Crew.holds_setProducer_ne (s : Crew n m) {j : Fin m} (x : Place Empty Producing)
    {q : Party n m} (hq : some (Party.producer j) ≠ some q) :
    (s.setProducer j x).holds q = s.holds q := by
  cases q with
  | producer i =>
    have hne : i ≠ j := fun h => hq (by rw [h])
    simp [holds, setProducer, hne]
  | _ => rfl

variable {json : Json} {client : Client} {me : Party n m → P} {flag flag' : Mutex Bool P}
  {s s' : Crew n m}

/-- A step of a consumer is a turn at the mutex, and the other threads stay where they are. -/
theorem ConsumerStep.turn {i : Fin n} {what : Do}
    (h : ConsumerStep me flag s i what flag' s') :
    Mutex.Turn (me (.consumer i)) flag (s.holds (.consumer i)) flag' (s'.holds (.consumer i)) ∧
      ∀ q, some (Party.consumer i) ≠ some q → s'.holds q = s.holds q := by
  refine ⟨?_, ?_⟩
  · cases h with
    | closed hx _ _ =>
      rw [Crew.holds_setConsumer, Crew.holds, hx]
      exact .write false
    | short hx _ _ _ =>
      rw [Crew.holds_setConsumer, Crew.holds, hx]
      exact .poison
    | message hx _ _ _ =>
      rw [Crew.holds_setConsumer, Crew.holds, hx]
      exact .idle
    | @returned closing hx =>
      rw [Crew.holds_setConsumer, Crew.holds, hx]
      cases closing <;> exact .idle
    | sends hx =>
      rw [Crew.holds_setConsumer, Crew.holds, hx]
      exact .idle
    | sentinel hx =>
      rw [Crew.holds_setConsumer, Crew.holds, hx]
      exact .idle
    | lock hadvance =>
      rw [Crew.holds_setConsumer, Crew.holds]
      exact hadvance.turn rfl rfl
  · intro q hq
    cases h <;> exact Crew.holds_setConsumer_ne _ _ hq

/-- A step of a producer is a turn at the mutex, and the other threads stay where they are. -/
theorem ProducerStep.turn {j : Fin m} {what : Do}
    (h : ProducerStep me flag s j what flag' s') :
    Mutex.Turn (me (.producer j)) flag (s.holds (.producer j)) flag' (s'.holds (.producer j)) ∧
      ∀ q, some (Party.producer j) ≠ some q → s'.holds q = s.holds q := by
  refine ⟨?_, ?_⟩
  · cases h with
    | publish hx =>
      rw [Crew.holds_setProducer, Crew.holds, hx]
      exact .idle
    | sentinel hx =>
      rw [Crew.holds_setProducer, Crew.holds, hx]
      exact .idle
    | lock hadvance =>
      rw [Crew.holds_setProducer, Crew.holds]
      exact hadvance.turn rfl rfl
  · intro q hq
    cases h <;> exact Crew.holds_setProducer_ne _ _ hq

/-- A step of the waker is a turn at the mutex, and the other threads stay where they are. -/
theorem WakerStep.turn (h : WakerStep me flag s flag' s') :
    Mutex.Turn (me .waker) flag (s.holds .waker) flag' (s'.holds .waker) ∧
      ∀ q, some (Party.waker) ≠ some q → s'.holds q = s.holds q := by
  refine ⟨?_, ?_⟩
  · cases h with
    | recv hx _ =>
      simp only [Crew.holds, hx]
      exact .idle
    | wake hx =>
      simp only [Crew.holds, hx]
      exact .idle
    | lock hadvance => exact hadvance.turn rfl rfl
  · intro q hq
    cases q with
    | waker => exact absurd rfl hq
    | _ => cases h <;> rfl

/-- A step of the control thread is a turn at the mutex, and the other threads stay where they
are. -/
theorem ControlStep.turn (h : ControlStep me flag s flag' s') :
    Mutex.Turn (me .control) flag (s.holds .control) flag' (s'.holds .control) ∧
      ∀ q, some (Party.control) ≠ some q → s'.holds q = s.holds q := by
  refine ⟨?_, ?_⟩
  · cases h with
    | recv hx _ =>
      simp only [Crew.holds, hx]
      exact .idle
    | deaf hx _ _ =>
      simp only [Crew.holds, hx]
      exact .idle
    | send hx =>
      simp only [Crew.holds, hx]
      exact .idle
    | wake hx =>
      simp only [Crew.holds, hx]
      exact .idle
    | lock hadvance => exact hadvance.turn rfl rfl
  · intro q hq
    cases q with
    | control => exact absurd rfl hq
    | _ => cases h <;> rfl

/-- A step of a crew is a turn of its thread at the mutex, if it is one of a thread, and the other
threads stay where they are. -/
theorem turn_of_step {a : Act n m} (h : step json client me flag s a = some (flag', s')) :
    (a.party = none → flag' = flag) ∧
      (∀ p, a.party = some p →
        Mutex.Turn (me p) flag (s.holds p) flag' (s'.holds p)) ∧
      ∀ q, a.party ≠ some q → s'.holds q = s.holds q := by
  have hturn : ∀ {p : Party n m},
      (Mutex.Turn (me p) flag (s.holds p) flag' (s'.holds p) ∧
        ∀ q, some p ≠ some q → s'.holds q = s.holds q) →
      (some p = none → flag' = flag) ∧
        (∀ q, some p = some q → Mutex.Turn (me q) flag (s.holds q) flag' (s'.holds q)) ∧
        ∀ q, some p ≠ some q → s'.holds q = s.holds q := by
    intro p hp
    refine ⟨nofun, ?_, hp.2⟩
    rintro q ⟨⟩
    exact hp.1
  cases a with
  | loop l =>
    obtain ⟨s₁, hloop, heq⟩ := Option.map_eq_some_iff.mp h
    cases heq
    have hsame := (loop_step hloop).same
    refine ⟨fun _ => rfl, nofun, fun q _ => ?_⟩
    rw [hsame]
    cases q <;> rfl
  | tell msg =>
    cases tell_step h
    exact ⟨fun _ => rfl, nofun, fun q _ => by cases q <;> rfl⟩
  | hangUp =>
    cases h
    exact ⟨fun _ => rfl, nofun, fun q _ => by cases q <;> rfl⟩
  | consumer i what => exact hturn (consumer_step h).turn
  | producer j what => exact hturn (producer_step h).turn
  | waker => exact hturn (waker_step h).turn
  | control => exact hturn (control_step h).turn

/-- A step of a crew keeps the exclusion, whoever else knows the mutex. -/
theorem exclusive_of_step {a : Act n m} {holds holds' : P → Bool}
    (hexclusive : flag.Exclusive holds) (h : step json client me flag s a = some (flag', s'))
    (hbefore : ∀ p, holds (me p) = s.holds p) (hafter : ∀ p, holds' (me p) = s'.holds p)
    (hother : ∀ q, (∀ p, q ≠ me p) → holds' q = holds q) : flag'.Exclusive holds' := by
  obtain ⟨hnone, hturn, hframe⟩ := turn_of_step h
  have hsame : ∀ q, (∀ p, q = me p → a.party ≠ some p) → holds' q = holds q := by
    intro q hq
    by_cases hmine : ∃ p, q = me p
    · obtain ⟨p, rfl⟩ := hmine
      rw [hafter, hbefore]
      exact hframe p (hq p rfl)
    · exact hother q fun p hp => hmine ⟨p, hp⟩
  cases hparty : a.party with
  | none =>
    have hholds : holds' = holds := by
      funext q
      exact hsame q fun p _ => by rw [hparty]; exact nofun
    rw [hholds, hnone hparty]
    exact hexclusive
  | some p =>
    have hp := hturn p hparty
    rw [← hbefore, ← hafter] at hp
    refine hexclusive.turn hp fun q hq => hsame q ?_
    rintro p' rfl heq
    rw [hparty] at heq
    exact hq (by rw [Option.some.inj heq])

/-- One thread holds the lock. -/
theorem exclusive_step {x x' : Mutex Bool (Party n m) × Crew n m} {a : Act n m}
    (hx : x.1.Exclusive x.2.holds) (h : machine json client x a = some x') :
    x'.1.Exclusive x'.2.holds :=
  exclusive_of_step hx h (fun _ => rfl) (fun _ => rfl) fun q hq => absurd rfl (hq q)

/-- While another thread holds the lock a consumer takes no step. -/
theorem ConsumerStep.alone {lock lock' : Mutex Bool (Party n m)} {i : Fin n} {what : Do}
    (h : ConsumerStep id lock s i what lock' s') (hexclusive : lock.Exclusive s.holds)
    {p : Party n m} (hp : s.holds p = true) : p = .consumer i := by
  have hinside : ∀ {x : Consuming}, s.consumers i = .inside x → p = .consumer i := by
    intro x hx
    refine hexclusive.unique hp ?_
    rw [Crew.holds, hx]
    rfl
  cases h with
  | closed hx _ _ => exact hinside hx
  | short hx _ _ _ => exact hinside hx
  | message hx _ _ _ => exact hinside hx
  | returned hx => exact hinside hx
  | sends hx => exact hinside hx
  | sentinel hx => exact hinside hx
  | lock hadvance =>
    by_contra hne
    exact hexclusive.blocks hp (Ne.symm hne) rfl hadvance

/-- While another thread holds the lock a producer takes no step. -/
theorem ProducerStep.alone {lock lock' : Mutex Bool (Party n m)} {j : Fin m} {what : Do}
    (h : ProducerStep id lock s j what lock' s') (hexclusive : lock.Exclusive s.holds)
    {p : Party n m} (hp : s.holds p = true) : p = .producer j := by
  have hinside : ∀ {x : Producing}, s.producers j = .inside x → p = .producer j := by
    intro x hx
    refine hexclusive.unique hp ?_
    rw [Crew.holds, hx]
    rfl
  cases h with
  | publish hx => exact hinside hx
  | sentinel hx => exact hinside hx
  | lock hadvance =>
    by_contra hne
    exact hexclusive.blocks hp (Ne.symm hne) rfl hadvance

theorem holds_start {client : Client} {alloc : Alloc} {clock : ℕ} (p : Party n m) :
    (Crew.start n m client alloc clock).holds p = false := by
  cases p <;> rfl

theorem exclusive_start (n m : ℕ) (client : Client) (alloc : Alloc) (clock : ℕ) :
    (start n m client alloc clock).1.Exclusive (start n m client alloc clock).2.holds :=
  Mutex.exclusive_init true fun p => holds_start p

/-! ## Messages -/

/-- The consumers received no more than was sent. -/
def Crew.Counted (s : Crew n m) : Prop := s.taken ≤ s.loop.conn.s.length

/-- The next message is one of those sent. -/
theorem take_of_queue {msg : BytesMsg} {queue : List BytesMsg} (h : s.queue = msg :: queue) :
    s.taken + 1 ≤ s.loop.conn.s.length ∧
      s.loop.conn.s.take (s.taken + 1) = s.loop.conn.s.take s.taken ++ [msg] := by
  have hdrop : s.loop.conn.s.drop s.taken = msg :: queue := h
  have hlt : s.taken < s.loop.conn.s.length := by
    by_contra hge
    rw [List.drop_eq_nil_of_le (Nat.le_of_not_lt hge)] at hdrop
    cases hdrop
  rw [List.drop_eq_getElem_cons hlt] at hdrop
  obtain ⟨rfl, -⟩ := List.cons.inj hdrop
  exact ⟨hlt, by rw [List.take_succ_eq_append_getElem hlt]⟩

/-- A step of the loop only adds to the message channel. -/
theorem LoopStep.queue {l : EventLoop.Label} (h : LoopStep json client s l s') (hs : s.Counted) :
    ∃ sent, s'.loop.conn.s = s.loop.conn.s ++ sent ∧ s'.queue = s.queue ++ sent ∧ s'.Counted := by
  obtain ⟨sent, hsent, -⟩ := EventLoop.sent_of_step h.step
  have htaken : s'.taken = s.taken := by rw [h.same]
  refine ⟨sent, hsent, ?_, ?_⟩
  · rw [Crew.queue, Crew.queue, htaken, hsent, List.drop_append_of_le_length hs]
  · rw [Crew.Counted, htaken, hsent, List.length_append]
    exact Nat.le_add_right_of_le hs

/-- Every step keeps the count. -/
theorem counted_of_step {a : Act n m} (hs : s.Counted)
    (h : step json client me flag s a = some (flag', s')) : s'.Counted := by
  cases a with
  | loop l =>
    obtain ⟨s₁, hloop, heq⟩ := Option.map_eq_some_iff.mp h
    cases heq
    obtain ⟨sent, -, -, hcounted⟩ := (loop_step hloop).queue hs
    exact hcounted
  | tell msg =>
    cases tell_step h
    exact hs
  | hangUp =>
    cases h
    exact hs
  | consumer i what =>
    cases consumer_step h with
    | closed _ hqueue _ => exact (take_of_queue hqueue).1
    | short _ hqueue _ _ => exact (take_of_queue hqueue).1
    | message _ hqueue _ _ => exact (take_of_queue hqueue).1
    | _ => exact hs
  | producer j what => cases producer_step h <;> exact hs
  | waker => cases waker_step h <;> exact hs
  | control => cases control_step h <;> exact hs

/-! ## The loop -/

/-- The loop of a crew takes at most a step of its own in a step of the crew. -/
theorem loop_of_step {a : Act n m} (h : step json client me flag s a = some (flag', s')) :
    s'.loop = s.loop ∨ ∃ l, (a = .loop l ∨ (∃ cmd, l = .send cmd) ∨ l = .close) ∧
      EventLoop.step json client s.loop l = some s'.loop := by
  cases a with
  | loop l =>
    obtain ⟨s₁, hloop, heq⟩ := Option.map_eq_some_iff.mp h
    cases heq
    exact .inr ⟨l, .inl rfl, (loop_step hloop).step⟩
  | tell msg =>
    cases tell_step h
    exact .inl rfl
  | hangUp =>
    cases h
    exact .inl rfl
  | consumer i what =>
    cases consumer_step h with
    | sends _ => exact .inr ⟨.send _, .inr (.inl ⟨_, rfl⟩), rfl⟩
    | _ => exact .inl rfl
  | producer j what =>
    cases producer_step h with
    | publish _ => exact .inr ⟨.send _, .inr (.inl ⟨_, rfl⟩), rfl⟩
    | _ => exact .inl rfl
  | waker => cases waker_step h <;> exact .inl rfl
  | control =>
    cases control_step h with
    | send _ => exact .inr ⟨.close, .inr (.inr rfl), rfl⟩
    | _ => exact .inl rfl

/-- `mio` delivers an event of the connection only with the readiness last registered. -/
def Mio (x : Mutex Bool (Party n m) × Crew n m) : Act n m → Prop
  | .loop l => EventLoop.Mio x.2.loop l
  | _ => True

instance (x : Mutex Bool (Party n m) × Crew n m) : (a : Act n m) → Decidable (Mio x a)
  | .loop l => inferInstanceAs (Decidable (EventLoop.Mio x.2.loop l))
  | .tell _ => .isTrue trivial
  | .hangUp => .isTrue trivial
  | .consumer _ _ => .isTrue trivial
  | .producer _ _ => .isTrue trivial
  | .waker => .isTrue trivial
  | .control => .isTrue trivial

/-- The loop of a client goes through a run of its own. -/
theorem loop_run {ok : Mutex Bool (Party n m) × Crew n m → Act n m → Prop}
    (hmio : ∀ x a, ok x a → Mio x a) {alloc : Alloc} {clock : ℕ} {as : List (Act n m)}
    {x : Mutex Bool (Party n m) × Crew n m}
    (hrun : Machine.Run (machine json client) ok (start n m client alloc clock) as x) :
    ∃ ls, Machine.Run (EventLoop.step json client) EventLoop.Mio
      (.start client [] alloc clock) ls x.2.loop := by
  have hstep : ∀ {x : Mutex Bool (Party n m) × Crew n m} {a : Act n m}
      {x' : Mutex Bool (Party n m) × Crew n m} {r : EventLoop}, x.2.loop = r → ok x a →
      machine json client x a = some x' → ∃ ls r',
        Machine.Run (EventLoop.step json client) EventLoop.Mio r ls r' ∧ x'.2.loop = r' := by
    rintro x a x' _ rfl hok hstep
    rcases loop_of_step hstep with hsame | ⟨l, hl, hloop⟩
    · exact ⟨[], _, .nil, hsame⟩
    · refine ⟨[] ++ [l], _, .snoc .nil ?_ hloop, rfl⟩
      rcases hl with rfl | ⟨cmd, rfl⟩ | rfl
      · exact hmio _ _ hok
      · trivial
      · trivial
  obtain ⟨ls, r, hloop, rfl⟩ := hrun.simulate (fun x r => x.2.loop = r) hstep rfl
  exact ⟨ls, hloop⟩

/-! ## A run -/

/-- A consumer handles a message: the handler sends a command, the waker makes `CLIENT_TOKEN` ready
for it and waits for the lock, and the loop writes the command. -/
def handling (i : Fin n) (cmd : Cmd) : List (Act n m) :=
  (EventLoop.joining ++ EventLoop.writing ++
      EventLoop.receiving "0123456789abcdef" [65]).map .loop ++
    [.consumer i .next, .consumer i .next, .consumer i .next, .consumer i (.send cmd),
      .consumer i .next, .waker, .waker, .loop (.poll [⟨.client, .writable⟩] 0),
      .loop (.event ⟨.ok [], fun _ => .ok 1000, true⟩)]

end Threads

end NsqClient
