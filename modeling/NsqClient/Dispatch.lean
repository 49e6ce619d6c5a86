import Mathlib.Data.List.Basic
import Mathlib.Logic.Function.Basic
import NsqClient.Codec
import NsqClient.Lib.Machine

set_option relaxedAutoImplicit false
set_option autoImplicit false

/-!
# The consumer threads

Any number of consumer threads share the receiving end of the message channel and the flag
`CONNECTED`, which a mutex guards (`Client::spawn` in `client.rs`).  A thread holds the lock for
a whole pass of its loop: it tests the flag, receives, and calls the handler before it lets go.

The mutex is also taken by the producer threads and by the two threads that wake the event loop;
they read the flag and never change it.  A thread that panics while it holds the lock poisons
the mutex, and every later `lock().unwrap()` panics.

## Main definitions

* `NsqClient.Dispatch.State`, `NsqClient.Dispatch.step` — the threads and their steps.
* `NsqClient.Dispatch.Ledger` — what the history of a well-behaved dispatcher looks like.
* `NsqClient.Dispatch.Inv` — how the history, the flag, the lock and the threads hang together.

## Main results

* `NsqClient.Dispatch.inv_step` — every step keeps the invariant.
* `NsqClient.Dispatch.dispatch_in_order` — messages are handled in order, each once, and none
  after the closing one.
-/

namespace NsqClient

namespace Dispatch

/-- Where a consumer thread is in its loop. -/
inductive Pc where
  /-- At `lock.lock().unwrap()`. -/
  | lock
  /-- At `if !*connected`. -/
  | test
  /-- At `msg_ch.recv()`. -/
  | recv
  /-- A message is there. -/
  | got (m : BytesMsg)
  /-- In `on_msg`. -/
  | inMsg
  /-- The flag is false; at `on_close`. -/
  | close
  /-- In `on_close`. -/
  | inClose
  /-- At the end of a pass, where the guard is dropped. -/
  | unlock
  /-- At a `break`, where the guard is dropped. -/
  | leave
  /-- The thread has ended. -/
  | done
  /-- The thread has panicked. -/
  | panicked
  deriving DecidableEq

/-- Whether a thread holds the lock. -/
def Pc.critical : Pc → Bool
  | lock => false
  | done => false
  | panicked => false
  | _ => true

/-- Who may hold the lock. -/
inductive Party (n : ℕ) where
  | consumer (i : Fin n)
  | other
  deriving DecidableEq

/-- What a consumer thread does that others can see. -/
inductive Event (n : ℕ) where
  | received (i : Fin n) (m : BytesMsg)
  | onMsg (i : Fin n) (msg : Msg)
  | onClose (i : Fin n)
  deriving DecidableEq

/-- The consumer threads of a client, the channel and the lock.  `sent` and `log` are history. -/
structure State (n : ℕ) where
  connected : Bool
  poisoned : Bool
  owner : Option (Party n)
  pc : Fin n → Pc
  /-- The contents of the message channel. -/
  queue : List BytesMsg
  /-- Whether a sending end of the channel is left. -/
  senders : Bool
  /-- All that was sent to the channel. -/
  sent : List BytesMsg
  /-- What the threads did. -/
  log : List (Event n)

/-- The threads are spawned, nothing was sent, and nobody holds the lock. -/
def State.init (n : ℕ) : State n where
  connected := true
  poisoned := false
  owner := none
  pc _ := .lock
  queue := []
  senders := true
  sent := []
  log := []

/-- The steps. -/
inductive Label (n : ℕ) where
  /-- A consumer thread takes its next step. -/
  | consumer (i : Fin n)
  /-- The event loop sends to the message channel. -/
  | send (m : BytesMsg)
  /-- The last sending end of the channel goes away. -/
  | dropSenders
  /-- Another thread takes the lock. -/
  | otherLocks
  /-- Another thread lets go of the lock. -/
  | otherUnlocks

/-- The message a consumer is handed. -/
def consumerMsg (m : BytesMsg) : Except Panic Msg :=
  (decodeMsg m.frame).map fun (timestamp, attemps, id, body) =>
    ⟨m.timeout, timestamp, attemps, id, body⟩

variable {n : ℕ}

/-- Move a thread. -/
def State.goto (s : State n) (i : Fin n) (pc : Pc) : State n :=
  { s with pc := Function.update s.pc i pc }

/-- The next step of a consumer thread, if it is not blocked. -/
def stepConsumer (s : State n) (i : Fin n) : Option (State n) :=
  match s.pc i with
  | .lock =>
    if s.owner = none then
      if s.poisoned then some (s.goto i .panicked)
      else some ({ s with owner := some (.consumer i) }.goto i .test)
    else none
  | .test => some (s.goto i (if s.connected then .recv else .leave))
  | .recv =>
    match s.queue with
    | m :: queue =>
      some ({ s with queue := queue, log := s.log ++ [Event.received i m] }.goto i (.got m))
    -- `recv` fails once the channel is empty and no sender is left
    | [] => if s.senders then none else some (s.goto i .unlock)
  | .got m =>
    if m.bytes.length = 0 then some ({ s with connected := false }.goto i .close)
    else
      match consumerMsg m with
      | .error _ => some ({ s with poisoned := true, owner := none }.goto i .panicked)
      | .ok msg => some ({ s with log := s.log ++ [Event.onMsg i msg] }.goto i .inMsg)
  | .inMsg => some (s.goto i .unlock)
  | .close => some ({ s with log := s.log ++ [Event.onClose i] }.goto i .inClose)
  | .inClose => some (s.goto i .leave)
  | .unlock => some ({ s with owner := none }.goto i .lock)
  | .leave => some ({ s with owner := none }.goto i .done)
  | .done => none
  | .panicked => none

/-- The steps of the dispatcher. -/
def step (s : State n) : Label n → Option (State n)
  | .consumer i => stepConsumer s i
  | .send m =>
    if s.senders then some { s with queue := s.queue ++ [m], sent := s.sent ++ [m] } else none
  | .dropSenders => some { s with senders := false }
  | .otherLocks =>
    if s.owner = none ∧ s.poisoned = false then some { s with owner := some .other } else none
  | .otherUnlocks => if s.owner = some .other then some { s with owner := none } else none

/-! ## Histories -/

/-- The messages received, in order. -/
def receivedOf (log : List (Event n)) : List BytesMsg :=
  log.filterMap fun
    | .received _ m => some m
    | _ => none

/-- The messages handed to `on_msg`, in order. -/
def handledOf (log : List (Event n)) : List Msg :=
  log.filterMap fun
    | .onMsg _ msg => some msg
    | _ => none

/-- How often `on_close` was called. -/
def closesOf (log : List (Event n)) : ℕ :=
  log.countP fun
    | .onClose _ => true
    | _ => false

/-- What is still to be done after a history. -/
inductive Status where
  /-- Nothing. -/
  | idle
  /-- This message was received and not handled. -/
  | pending (m : BytesMsg)
  /-- The handler was told that the connection is closed. -/
  | closed

/-- The histories of a well-behaved dispatcher: a message is handled before the next one is
received, and the closing one ends it. -/
inductive Ledger : List (Event n) → Status → Prop where
  | start : Ledger [] .idle
  | received {log : List (Event n)} (i : Fin n) (m : BytesMsg) :
      Ledger log .idle → Ledger (log ++ [.received i m]) (.pending m)
  | onMsg {log : List (Event n)} {m : BytesMsg} {msg : Msg} (i : Fin n) :
      Ledger log (.pending m) → m.bytes ≠ [] → consumerMsg m = .ok msg →
      Ledger (log ++ [.onMsg i msg]) .idle
  | onClose {log : List (Event n)} {m : BytesMsg} (i : Fin n) :
      Ledger log (.pending m) → m.bytes = [] → Ledger (log ++ [.onClose i]) .closed

/-- The messages received that a status does not count as handled. -/
def Status.unhandled (received : List BytesMsg) : Status → Prop
  | idle => received = []
  | pending m => received = [m]
  | closed => ∃ m, received = [m] ∧ m.bytes = []

/-- What is received is what is handled, in order, then what the status says.

**Proof sketch.** Induction on the history: a message received becomes the unhandled one, and it
moves to the handled ones with its call of `on_msg`. -/
theorem Ledger.handled {log : List (Event n)} {st : Status} (h : Ledger log st) :
    ∃ handled unhandled, receivedOf log = handled ++ unhandled ∧ st.unhandled unhandled ∧
      (∀ m ∈ handled, m.bytes ≠ []) ∧
      (handledOf log).map .ok = handled.map consumerMsg := by
  induction h with
  | start => exact ⟨[], [], rfl, rfl, by simp, rfl⟩
  | received i m _ ih =>
    obtain ⟨handled, unhandled, hreceived, rfl, hne, hhandled⟩ := ih
    refine ⟨handled, [m], ?_, rfl, hne, ?_⟩
    · simp only [receivedOf, List.filterMap_append] at hreceived ⊢
      rw [hreceived]
      simp
    · simpa [handledOf] using hhandled
  | @onMsg log m msg i _ hm hmsg ih =>
    obtain ⟨handled, unhandled, hreceived, rfl, hne, hhandled⟩ := ih
    refine ⟨handled ++ [m], [], ?_, rfl, ?_, ?_⟩
    · simpa [receivedOf] using hreceived
    · intro m' hm'
      rcases List.mem_append.mp hm' with hm' | hm'
      · exact hne m' hm'
      · rw [List.mem_singleton.mp hm']
        exact hm
    · simp only [handledOf, List.filterMap_append, List.map_append] at hhandled ⊢
      rw [hhandled]
      simp [hmsg]
  | @onClose log m i _ hm ih =>
    obtain ⟨handled, unhandled, hreceived, rfl, hne, hhandled⟩ := ih
    refine ⟨handled, [m], ?_, ⟨m, rfl, hm⟩, hne, ?_⟩
    · simpa [receivedOf] using hreceived
    · simpa [handledOf] using hhandled

/-- `on_close` is called once, when the history is closed. -/
theorem Ledger.closes {log : List (Event n)} {st : Status} (h : Ledger log st) :
    closesOf log ≤ 1 ∧ (st ≠ .closed → closesOf log = 0) := by
  induction h with
  | start => exact ⟨Nat.zero_le 1, fun _ => rfl⟩
  | received i m _ ih =>
    have h0 := ih.2 nofun
    simp only [closesOf, List.countP_append] at h0 ⊢
    simp [h0]
  | onMsg i _ _ _ ih =>
    have h0 := ih.2 nofun
    simp only [closesOf, List.countP_append] at h0 ⊢
    simp [h0]
  | onClose i _ _ ih =>
    have h0 := ih.2 nofun
    simp only [closesOf, List.countP_append] at h0 ⊢
    simp [h0]

/-- After the closing message there is no call of `on_msg`.

**Proof sketch.** Induction on the history.  Once the closing message is received the status is
that it is pending, or that the history is closed; neither allows a call of `on_msg`. -/
theorem Ledger.no_onMsg_after {log : List (Event n)} {st : Status} (h : Ledger log st)
    {pre post : List (Event n)} {i : Fin n} {m : BytesMsg}
    (hlog : log = pre ++ .received i m :: post) (hm : m.bytes = []) :
    (st = .pending m ∨ st = .closed) ∧ ∀ j msg, Event.onMsg j msg ∉ post := by
  induction h generalizing post with
  | start => simp at hlog
  | @received log j m' h ih =>
    rcases List.eq_nil_or_concat post with rfl | ⟨post', last, rfl⟩
    · obtain ⟨-, hlast⟩ := List.append_inj' hlog rfl
      cases hlast
      exact ⟨.inl rfl, by simp⟩
    · rw [List.concat_eq_append, ← List.cons_append, ← List.append_assoc] at hlog
      obtain ⟨hlog, -⟩ := List.append_inj' hlog rfl
      obtain ⟨hst | hst, -⟩ := ih hlog <;> cases hst
  | @onMsg log m' msg j h hm' _ ih =>
    rcases List.eq_nil_or_concat post with rfl | ⟨post', last, rfl⟩
    · obtain ⟨-, hlast⟩ := List.append_inj' hlog rfl
      cases hlast
    · rw [List.concat_eq_append, ← List.cons_append, ← List.append_assoc] at hlog
      obtain ⟨hlog, -⟩ := List.append_inj' hlog rfl
      obtain ⟨hst | hst, -⟩ := ih hlog
      · cases hst
        exact absurd hm hm'
      · cases hst
  | @onClose log m' j h hm' ih =>
    rcases List.eq_nil_or_concat post with rfl | ⟨post', last, rfl⟩
    · obtain ⟨-, hlast⟩ := List.append_inj' hlog rfl
      cases hlast
    · rw [List.concat_eq_append, ← List.cons_append, ← List.append_assoc] at hlog
      obtain ⟨hlog, hlast⟩ := List.append_inj' hlog rfl
      obtain ⟨-, hpost⟩ := ih hlog
      refine ⟨.inr rfl, ?_⟩
      intro j' msg hmem
      cases hlast
      rcases List.mem_append.mp (List.concat_eq_append ▸ hmem) with hmem | hmem
      · exact hpost j' msg hmem
      · simp at hmem

/-! ## The invariant -/

/-- What the place of a thread says about the status of the history and about the flag. -/
def PcOk (st : Status) (connected : Bool) : Pc → Prop
  | .recv => st = .idle ∧ connected = true
  | .got m => st = .pending m ∧ connected = true
  | .close => (∃ m, st = .pending m ∧ m.bytes = []) ∧ connected = false
  | _ => True

/-- The invariant, for a status of the history. -/
structure InvAt (st : Status) (s : State n) : Prop where
  ledger : Ledger s.log st
  sent : s.sent = receivedOf s.log ++ s.queue
  mutex : ∀ i, (s.pc i).critical = true ↔ s.owner = some (.consumer i)
  poisoned : s.poisoned = true → s.owner = none
  pcOk : ∀ i, PcOk st s.connected (s.pc i)
  pending : ∀ m, st = .pending m → s.poisoned = true ∨
    ∃ i, s.owner = some (.consumer i) ∧ (s.pc i = .got m ∨ s.pc i = .close)
  closed : st = .closed → s.connected = false

/-- The history is well-behaved, what was sent was received or is in the channel, and the flag,
the lock and the threads are where the history says. -/
def Inv (s : State n) : Prop := ∃ st, InvAt st s

/-- A thread outside the lock may be anywhere. -/
theorem pcOk_of_not_critical {st : Status} {connected : Bool} {pc : Pc}
    (h : pc.critical = false) : PcOk st connected pc := by
  cases pc <;> first | exact trivial | cases h

/-- Every thread but the owner of the lock is outside of it. -/
theorem InvAt.not_critical {st : Status} {s : State n} (h : InvAt st s) {i : Fin n}
    (hi : s.owner ≠ some (.consumer i)) : (s.pc i).critical = false := by
  rw [← Bool.not_eq_true, h.mutex i]
  exact hi

theorem inv_init : Inv (State.init n) := by
  refine ⟨.idle, .start, rfl, ?_, ?_, ?_, ?_, ?_⟩
  · intro i
    simp [State.init, Pc.critical]
  · intro h
    cases h
  · intro i
    exact trivial
  · intro m h
    cases h
  · intro h
    cases h

/-- When the owner of the lock moves, the other threads are outside of it, and may be anywhere. -/
theorem InvAt.pcOk_update {st st' : Status} {s : State n} {i : Fin n} {pc : Pc} {connected : Bool}
    (h : InvAt st s) (hi : s.owner = some (.consumer i)) (hok : PcOk st' connected pc) (j : Fin n) :
    PcOk st' connected (Function.update s.pc i pc j) := by
  by_cases hj : j = i
  · subst hj
    rw [Function.update_self]
    exact hok
  · rw [Function.update_of_ne hj]
    apply pcOk_of_not_critical
    apply h.not_critical
    rw [hi]
    intro heq
    cases heq
    exact hj rfl

/-- The owner of the lock moves inside it.

**Proof sketch.** The other threads are outside the lock, where nothing is required of them; the
owner has to be where the new status says. -/
theorem InvAt.move {st st' : Status} {s s' : State n} {i : Fin n} {pc : Pc} (h : InvAt st s)
    (hi : s.owner = some (.consumer i)) (hpc : s'.pc = Function.update s.pc i pc)
    (howner : s'.owner = s.owner) (hpoisoned : s'.poisoned = s.poisoned)
    (hledger : Ledger s'.log st') (hsent : s'.sent = receivedOf s'.log ++ s'.queue)
    (hcritical : pc.critical = true) (hok : PcOk st' s'.connected pc)
    (hpending : ∀ m, st' = .pending m → pc = .got m ∨ pc = .close)
    (hclosed : st' = .closed → s'.connected = false) : InvAt st' s' where
  ledger := hledger
  sent := hsent
  mutex j := by
    rw [hpc, howner]
    by_cases hj : j = i
    · subst hj
      rw [Function.update_self, hi]
      exact ⟨fun _ => rfl, fun _ => hcritical⟩
    · rw [Function.update_of_ne hj]
      exact h.mutex j
  poisoned hp := by
    rw [howner]
    rw [hpoisoned] at hp
    exact h.poisoned hp
  pcOk j := by
    rw [hpc]
    exact h.pcOk_update hi hok j
  pending m hm := by
    refine .inr ⟨i, howner.trans hi, ?_⟩
    rw [hpc, Function.update_self]
    exact hpending m hm
  closed := hclosed

/-- The owner of the lock lets go of it, with nothing pending or because it panics. -/
theorem InvAt.release {st : Status} {s s' : State n} {i : Fin n} {pc : Pc} (h : InvAt st s)
    (hi : s.owner = some (.consumer i)) (hpc : s'.pc = Function.update s.pc i pc)
    (howner : s'.owner = none) (hlog : s'.log = s.log) (hsent : s'.sent = s.sent)
    (hqueue : s'.queue = s.queue) (hconnected : s'.connected = s.connected)
    (hcritical : pc.critical = false)
    (hpending : (∀ m, st ≠ .pending m) ∨ s'.poisoned = true) : InvAt st s' where
  ledger := by
    rw [hlog]
    exact h.ledger
  sent := by
    rw [hsent, hlog, hqueue]
    exact h.sent
  mutex j := by
    rw [hpc, howner]
    by_cases hj : j = i
    · subst hj
      rw [Function.update_self, hcritical]
      simp
    · rw [Function.update_of_ne hj, h.mutex j, hi]
      constructor
      · intro heq
        cases heq
        exact absurd rfl hj
      · intro heq
        cases heq
  poisoned _ := howner
  pcOk j := by
    rw [hpc]
    exact h.pcOk_update hi (pcOk_of_not_critical hcritical) j
  pending m hm := hpending.elim (fun hno => absurd hm (hno m)) .inl
  closed hst := by
    rw [hconnected]
    exact h.closed hst

/-- A thread that holds the lock is its owner. -/
theorem InvAt.owner {st : Status} {s : State n} {i : Fin n} {pc : Pc} (h : InvAt st s)
    (hpc : s.pc i = pc) (hcritical : pc.critical = true) : s.owner = some (.consumer i) := by
  rw [← hpc] at hcritical
  exact (h.mutex i).mp hcritical

/-- A thread is where the status and the flag allow. -/
theorem InvAt.at_pc {st : Status} {s : State n} {i : Fin n} {pc : Pc} (h : InvAt st s)
    (hpc : s.pc i = pc) : PcOk st s.connected pc := by
  rw [← hpc]
  exact h.pcOk i

/-- While the owner of the lock is neither at a message nor at `on_close`, nothing is pending. -/
theorem InvAt.not_pending {st : Status} {s : State n} {i : Fin n} {pc : Pc} (h : InvAt st s)
    (hpc : s.pc i = pc) (hcritical : pc.critical = true) (hgot : ∀ m, pc ≠ .got m)
    (hclose : pc ≠ .close) (m : BytesMsg) : st ≠ .pending m := by
  have hi := h.owner hpc hcritical
  intro hst
  rcases h.pending m hst with hp | ⟨j, hj, hat⟩
  · rw [h.poisoned hp] at hi
    cases hi
  · rw [hi] at hj
    cases hj
    rw [hpc] at hat
    rcases hat with hat | hat
    · exact hgot m hat
    · exact hclose hat

/-- While nobody holds the lock and it is not poisoned, nothing is pending. -/
theorem InvAt.not_pending_of_free {st : Status} {s : State n} (h : InvAt st s)
    (howner : ∀ i, s.owner ≠ some (.consumer i)) (hpoisoned : s.poisoned = false)
    (m : BytesMsg) : st ≠ .pending m := by
  intro hst
  rcases h.pending m hst with hp | ⟨i, hi, -⟩
  · rw [hpoisoned] at hp
    cases hp
  · exact howner i hi

/-- A thread takes the lock. -/
theorem InvAt.acquire {st : Status} {s : State n} {i : Fin n} (h : InvAt st s)
    (howner : s.owner = none) (hpoisoned : s.poisoned = false) :
    InvAt st ({ s with owner := some (.consumer i) }.goto i .test) where
  ledger := h.ledger
  sent := h.sent
  mutex j := by
    by_cases hj : j = i
    · subst hj
      simp [State.goto, Pc.critical]
    · have hcritical : (s.pc j).critical = false := h.not_critical (by rw [howner]; simp)
      simp only [State.goto, Function.update_of_ne hj, hcritical, Option.some.injEq,
        Party.consumer.injEq]
      exact ⟨nofun, fun heq => absurd heq.symm hj⟩
  poisoned hp := by
    have hp : s.poisoned = true := hp
    rw [hpoisoned] at hp
    cases hp
  pcOk j := by
    by_cases hj : j = i
    · subst hj
      simp [State.goto, PcOk]
    · simp only [State.goto, Function.update_of_ne hj]
      exact h.pcOk j
  pending m hm := by
    refine absurd hm (h.not_pending_of_free ?_ hpoisoned m)
    rw [howner]
    exact nofun
  closed := h.closed

/-- A thread finds the lock poisoned. -/
theorem InvAt.panic {st : Status} {s : State n} {i : Fin n} (h : InvAt st s)
    (howner : s.owner = none) (hpoisoned : s.poisoned = true) :
    InvAt st (s.goto i .panicked) where
  ledger := h.ledger
  sent := h.sent
  mutex j := by
    by_cases hj : j = i
    · subst hj
      simp [State.goto, Pc.critical, howner]
    · simp only [State.goto, Function.update_of_ne hj]
      exact h.mutex j
  poisoned := h.poisoned
  pcOk j := by
    by_cases hj : j = i
    · subst hj
      simp [State.goto, PcOk]
    · simp only [State.goto, Function.update_of_ne hj]
      exact h.pcOk j
  pending _ _ := .inl hpoisoned
  closed := h.closed

/-- Another thread takes the lock or lets go of it. -/
theorem InvAt.other {st : Status} {s : State n} {owner : Option (Party n)} (h : InvAt st s)
    (hbefore : ∀ i, s.owner ≠ some (.consumer i)) (hafter : ∀ i, owner ≠ some (.consumer i))
    (hpoisoned : s.poisoned = false ∨ owner = none) : InvAt st { s with owner := owner } where
  ledger := h.ledger
  sent := h.sent
  mutex i := by
    rw [h.mutex i]
    exact ⟨fun hi => absurd hi (hbefore i), fun hi => absurd hi (hafter i)⟩
  poisoned hp := by
    rcases hpoisoned with hno | hnone
    · have hp : s.poisoned = true := hp
      rw [hno] at hp
      cases hp
    · exact hnone
  pcOk := h.pcOk
  pending m hm := by
    rcases h.pending m hm with hp | ⟨i, hi, -⟩
    · exact .inl hp
    · exact absurd hi (hbefore i)
  closed := h.closed

/-! ## Every step keeps the invariant -/

/-- A step of a consumer thread keeps the invariant, by its place in the loop. -/
theorem inv_stepConsumer {s s' : State n} {i : Fin n} (h : Inv s)
    (hstep : stepConsumer s i = some s') : Inv s' := by
  obtain ⟨st, h⟩ := h
  unfold stepConsumer at hstep
  cases hpc : s.pc i with
  | lock =>
    rw [hpc] at hstep
    simp only at hstep
    split_ifs at hstep with howner hpoisoned
    · cases hstep
      exact ⟨st, h.panic howner hpoisoned⟩
    · cases hstep
      exact ⟨st, h.acquire howner (by simpa using hpoisoned)⟩
  | test =>
    rw [hpc] at hstep
    cases hstep
    have hi := h.owner hpc rfl
    have hno := h.not_pending hpc rfl (by simp) (by simp)
    refine ⟨st, h.move hi rfl rfl rfl h.ledger h.sent ?_ ?_ (fun m hm => absurd hm (hno m))
      h.closed⟩
    · split_ifs <;> rfl
    · split_ifs with hconnected
      · refine ⟨?_, hconnected⟩
        cases st with
        | idle => rfl
        | pending m => exact absurd rfl (hno m)
        | closed => exact absurd (h.closed rfl) (by rw [hconnected]; simp)
      · exact trivial
  | recv =>
    rw [hpc] at hstep
    have hi := h.owner hpc rfl
    obtain ⟨rfl, hconnected⟩ := h.at_pc hpc
    simp only at hstep
    cases hqueue : s.queue with
    | nil =>
      rw [hqueue] at hstep
      simp only at hstep
      split_ifs at hstep
      cases hstep
      exact ⟨.idle, h.move hi rfl rfl rfl h.ledger h.sent rfl trivial nofun nofun⟩
    | cons m queue =>
      rw [hqueue] at hstep
      cases hstep
      refine ⟨.pending m, h.move hi rfl rfl rfl (.received i m h.ledger) ?_ rfl
        ⟨rfl, hconnected⟩ ?_ nofun⟩
      · show s.sent = receivedOf (s.log ++ [Event.received i m]) ++ queue
        rw [h.sent, hqueue]
        simp [receivedOf]
      · intro m' hm'
        cases hm'
        exact .inl rfl
  | got m =>
    rw [hpc] at hstep
    have hi := h.owner hpc rfl
    obtain ⟨rfl, hconnected⟩ := h.at_pc hpc
    simp only at hstep
    split_ifs at hstep with hm
    · cases hstep
      refine ⟨.pending m, h.move hi rfl rfl rfl h.ledger h.sent rfl ?_ (fun _ _ => .inr rfl) nofun⟩
      exact ⟨⟨m, rfl, List.eq_nil_of_length_eq_zero hm⟩, rfl⟩
    · cases hmsg : consumerMsg m with
      | error p =>
        rw [hmsg] at hstep
        cases hstep
        exact ⟨.pending m, h.release hi rfl rfl rfl rfl rfl rfl rfl (.inr rfl)⟩
      | ok msg =>
        rw [hmsg] at hstep
        cases hstep
        have hne : m.bytes ≠ [] := fun hnil => hm (by rw [hnil]; rfl)
        refine ⟨.idle, h.move hi rfl rfl rfl (.onMsg i h.ledger hne hmsg) ?_ rfl trivial nofun
          nofun⟩
        show s.sent = receivedOf (s.log ++ [Event.onMsg i msg]) ++ s.queue
        rw [h.sent]
        simp [receivedOf]
  | inMsg =>
    rw [hpc] at hstep
    cases hstep
    have hi := h.owner hpc rfl
    have hno := h.not_pending hpc rfl (by simp) (by simp)
    exact ⟨st, h.move hi rfl rfl rfl h.ledger h.sent rfl trivial
      (fun m hm => absurd hm (hno m)) h.closed⟩
  | close =>
    rw [hpc] at hstep
    cases hstep
    have hi := h.owner hpc rfl
    obtain ⟨⟨m, rfl, hm⟩, hconnected⟩ := h.at_pc hpc
    refine ⟨.closed, h.move hi rfl rfl rfl (.onClose i h.ledger hm) ?_ rfl trivial nofun
      fun _ => hconnected⟩
    show s.sent = receivedOf (s.log ++ [Event.onClose i]) ++ s.queue
    rw [h.sent]
    simp [receivedOf]
  | inClose =>
    rw [hpc] at hstep
    cases hstep
    have hi := h.owner hpc rfl
    have hno := h.not_pending hpc rfl (by simp) (by simp)
    exact ⟨st, h.move hi rfl rfl rfl h.ledger h.sent rfl trivial
      (fun m hm => absurd hm (hno m)) h.closed⟩
  | unlock =>
    rw [hpc] at hstep
    cases hstep
    have hi := h.owner hpc rfl
    exact ⟨st, h.release hi rfl rfl rfl rfl rfl rfl rfl
      (.inl (h.not_pending hpc rfl (by simp) (by simp)))⟩
  | leave =>
    rw [hpc] at hstep
    cases hstep
    have hi := h.owner hpc rfl
    exact ⟨st, h.release hi rfl rfl rfl rfl rfl rfl rfl
      (.inl (h.not_pending hpc rfl (by simp) (by simp)))⟩
  | done =>
    rw [hpc] at hstep
    cases hstep
  | panicked =>
    rw [hpc] at hstep
    cases hstep

/-- Every step keeps the invariant. -/
theorem inv_step {s s' : State n} {l : Label n} (h : Inv s) (hstep : step s l = some s') :
    Inv s' := by
  cases l with
  | consumer i => exact inv_stepConsumer h hstep
  | send m =>
    obtain ⟨st, h⟩ := h
    simp only [step] at hstep
    split_ifs at hstep
    cases hstep
    refine ⟨st, h.ledger, ?_, h.mutex, h.poisoned, h.pcOk, h.pending, h.closed⟩
    show s.sent ++ [m] = receivedOf s.log ++ (s.queue ++ [m])
    rw [h.sent, List.append_assoc]
  | dropSenders =>
    obtain ⟨st, h⟩ := h
    cases hstep
    exact ⟨st, h.ledger, h.sent, h.mutex, h.poisoned, h.pcOk, h.pending, h.closed⟩
  | otherLocks =>
    obtain ⟨st, h⟩ := h
    simp only [step] at hstep
    split_ifs at hstep with hfree
    cases hstep
    refine ⟨st, h.other ?_ nofun (.inl hfree.2)⟩
    rw [hfree.1]
    exact nofun
  | otherUnlocks =>
    obtain ⟨st, h⟩ := h
    simp only [step] at hstep
    split_ifs at hstep with howner
    cases hstep
    refine ⟨st, h.other ?_ nofun (.inr rfl)⟩
    rw [howner]
    exact nofun

/-! ## Dispatch in order -/

/-- The channel up to the first empty message, and each message as a consumer is handed it. -/
def deliverable (sent : List BytesMsg) : List (Except Panic Msg) :=
  (sent.takeWhile fun m => m.bytes ≠ []).map consumerMsg

/-- Messages that are not empty, at the front of a channel, are among the deliverable ones. -/
theorem map_consumerMsg_prefix {ms rest : List BytesMsg} (hne : ∀ m ∈ ms, m.bytes ≠ []) :
    ms.map consumerMsg <+: deliverable (ms ++ rest) := by
  have htake : ∀ m ∈ ms, decide (m.bytes ≠ []) = true := fun m hm => decide_eq_true (hne m hm)
  rw [deliverable, List.takeWhile_append_of_pos htake, List.map_append]
  exact List.prefix_append _ _

/-- By the invariant the calls of `on_msg` are the messages of the channel up to the first empty
one, in order; `on_close` is called at most once, and no `on_msg` after the empty message. -/
theorem Inv.in_order {s : State n} (h : Inv s) :
    (handledOf s.log).map .ok <+: deliverable s.sent ∧ closesOf s.log ≤ 1 ∧
      ∀ pre post i m, s.log = pre ++ .received i m :: post → m.bytes = [] →
        ∀ j msg, Event.onMsg j msg ∉ post := by
  obtain ⟨st, h⟩ := h
  obtain ⟨handled, unhandled, hreceived, -, hne, hhandled⟩ := h.ledger.handled
  refine ⟨?_, h.ledger.closes.1, ?_⟩
  · rw [hhandled, h.sent, hreceived, List.append_assoc]
    exact map_consumerMsg_prefix hne
  · intro pre post i m hlog hm
    exact (h.ledger.no_onMsg_after hlog hm).2

/-- However many consumer threads there are, whatever is sent to the message channel, and however
the threads interleave: the calls of `on_msg` are, in order and each once, the messages of the
channel up to the first empty one; `on_close` is called at most once; and once the empty message
is received, no call of `on_msg` starts. -/
theorem dispatch_in_order {s : State n} {ls : List (Label n)}
    (hrun : Machine.Run step Machine.anything (State.init n) ls s) :
    (handledOf s.log).map .ok <+: deliverable s.sent ∧ closesOf s.log ≤ 1 ∧
      ∀ pre post i m, s.log = pre ++ .received i m :: post → m.bytes = [] →
        ∀ j msg, Event.onMsg j msg ∉ post := by
  have h : Inv s := hrun.invariant Inv inv_init fun _ _ _ h _ hstep => inv_step h hstep
  exact h.in_order

/-- Two threads, a message and the closing one: the first thread handles the message, the second
one closes, and both end. -/
theorem dispatch_in_order_two :
    ∃ s : State 2, (handledOf s.log).length = 1 ∧ closesOf s.log = 1 ∧
      (handledOf s.log).map .ok <+: deliverable s.sent ∧ s.pc 0 = .done ∧ s.pc 1 = .done := by
  have hexec : Machine.exec step Machine.anything (State.init 2)
      ([.send ⟨0, List.replicate 30 65, .inline⟩, .send ⟨0, [], .inline⟩] ++
        List.replicate 6 (.consumer 0) ++ List.replicate 7 (.consumer 1) ++
        List.replicate 3 (.consumer 0)) = some _ := rfl
  have hrun := Machine.Run.of_exec hexec
  exact ⟨_, by decide, by decide, (dispatch_in_order hrun).1, by decide, by decide⟩

end Dispatch

end NsqClient
