import NsqClient.Validity
import NsqClient.Wakeups

set_option relaxedAutoImplicit false
set_option autoImplicit false

/-!
# Two clients in one process

`CONNECTED` is a static of the process, so two clients share the flag and its mutex.  A client that
closes makes the flag false for the other one too, and for one that is created later; a message
that is too short poisons the mutex for both; and a consumer of one client that waits for a message
keeps the threads of the other one waiting with it.  As long as the consumers of the first client
take the lock only for a message that is there and long enough, the second one goes through a run of
its own, and what it could do alone it can do at the latest when the thread of the first client that
holds the lock has let it go, a few steps later.

## Main definitions

* `NsqClient.Threads.joint` — the steps of two clients.
* `NsqClient.Threads.second` — the second client as if it were alone.
* `NsqClient.Threads.Harmless` — a consumer of the first client takes the lock for a message.
* `NsqClient.Threads.Crew.turns` — how many steps a thread keeps the lock.

## Main results

* `NsqClient.Threads.step_view` — a step of a crew is one in every view that knows its threads.
* `NsqClient.Threads.exists_nearer` — the thread that holds the lock takes a step and is nearer to
  letting it go.
* `NsqClient.Threads.isolated` — after a run of harmless steps the second client is where it would
  be alone, and can do what it could do alone.
-/

namespace NsqClient

namespace Threads

open EventLoop
open Mutex (Place)

variable {n m n' m' : ℕ} {P Q : Type} {json : Json} {client client' : Client}

/-! ## Views of a crew -/

section View

variable {me : Party n m → P} {me' : Party n m → Q} {f : P → Option Q} {flag flag' : Mutex Bool P}
  {s s' : Crew n m}

/-- A step of a consumer is one in every view that knows the threads. -/
theorem ConsumerStep.view {i : Fin n} {what : Do} (h : ConsumerStep me flag s i what flag' s')
    (hme : ∀ p, f (me p) = some (me' p)) :
    stepConsumer me' (flag.view f) s i what = some (flag'.view f, s') := by
  cases h with
  | closed hx hqueue hnil => simp [stepConsumer, hx, hqueue, hnil, Mutex.view]
  | short hx hqueue hne hmsg => simp [stepConsumer, hx, hqueue, hne, hmsg, Mutex.view]
  | message hx hqueue hne hmsg => simp [stepConsumer, hx, hqueue, hne, hmsg]
  | returned hx => simp [stepConsumer, hx]
  | sends hx => simp [stepConsumer, hx]
  | sentinel hx => simp [stepConsumer, hx]
  | @lock _ x hadvance =>
    have hview := hadvance.view (hme (.consumer i))
    cases hx : s.consumers i with
    | inside y =>
      rw [hx] at hadvance
      cases hadvance
    | _ =>
      rw [hx] at hview
      simp [stepConsumer, hx, hview]

/-- A step of a producer is one in every view that knows the threads. -/
theorem ProducerStep.view {j : Fin m} {what : Do} (h : ProducerStep me flag s j what flag' s')
    (hme : ∀ p, f (me p) = some (me' p)) :
    stepProducer me' (flag.view f) s j what = some (flag'.view f, s') := by
  cases h with
  | publish hx => simp [stepProducer, hx]
  | sentinel hx => simp [stepProducer, hx]
  | @lock _ x hadvance =>
    have hview := hadvance.view (hme (.producer j))
    cases hx : s.producers j with
    | inside y =>
      rw [hx] at hadvance
      cases hadvance
    | _ =>
      rw [hx] at hview
      simp [stepProducer, hx, hview]

/-- A step of the waker is one in every view that knows the threads. -/
theorem WakerStep.view (h : WakerStep me flag s flag' s') (hme : ∀ p, f (me p) = some (me' p)) :
    stepWaker me' (flag.view f) s = some (flag'.view f, s') := by
  cases h with
  | recv hx hpos => simp [stepWaker, hx, hpos]
  | wake hx => simp [stepWaker, hx]
  | @lock _ x hadvance =>
    have hview := hadvance.view (hme .waker)
    cases hx : s.waker with
    | outside y =>
      rw [hx] at hadvance
      cases hadvance
    | _ =>
      rw [hx] at hview
      simp [stepWaker, hx, hview]

/-- A step of the control thread is one in every view that knows the threads. -/
theorem ControlStep.view (h : ControlStep me flag s flag' s')
    (hme : ∀ p, f (me p) = some (me' p)) :
    stepControl me' (flag.view f) s = some (flag'.view f, s') := by
  cases h with
  | recv hx hcmd => simp [stepControl, hx, hcmd]
  | deaf hx hcmd hhung => simp [stepControl, hx, hcmd, hhung]
  | send hx => simp [stepControl, hx]
  | wake hx => simp [stepControl, hx]
  | @lock _ x hadvance =>
    have hview := hadvance.view (hme .control)
    cases hx : s.control with
    | outside y =>
      rw [hx] at hadvance
      cases hadvance
    | _ =>
      rw [hx] at hview
      simp [stepControl, hx, hview]

/-- A step of a crew is one in every view that knows its threads. -/
theorem step_view {a : Act n m} (h : step json client me flag s a = some (flag', s'))
    (hme : ∀ p, f (me p) = some (me' p)) :
    step json client me' (flag.view f) s a = some (flag'.view f, s') := by
  cases a with
  | loop l =>
    obtain ⟨s₁, hloop, heq⟩ := Option.map_eq_some_iff.mp h
    cases heq
    simp [step, hloop]
  | tell msg =>
    simp only [step] at h ⊢
    split_ifs at h ⊢ with hhung
    cases h
    rfl
  | hangUp =>
    cases h
    rfl
  | consumer i what => exact (consumer_step h).view hme
  | producer j what => exact (producer_step h).view hme
  | waker => exact (waker_step h).view hme
  | control => exact (control_step h).view hme

end View

/-! ## Two clients -/

/-- The steps of two clients, who share the flag and its mutex. -/
def joint (json : Json) (client client' : Client)
    (x : Mutex Bool (Party n m ⊕ Party n' m') × Crew n m × Crew n' m') :
    Act n m ⊕ Act n' m' → Option (Mutex Bool (Party n m ⊕ Party n' m') × Crew n m × Crew n' m')
  | .inl a => (step json client .inl x.1 x.2.1 a).map fun (flag, s) => (flag, s, x.2.2)
  | .inr a => (step json client' .inr x.1 x.2.2 a).map fun (flag, s) => (flag, x.2.1, s)

/-- Two clients at the start of their `run`. -/
def jointStart (n m n' m' : ℕ) (client client' : Client) (alloc alloc' : Alloc)
    (clock clock' : ℕ) :
    Mutex Bool (Party n m ⊕ Party n' m') × Crew n m × Crew n' m' :=
  (.init true, .start n m client alloc clock, .start n' m' client' alloc' clock')

/-- The second client as if it were alone: the lock is free for it while the first one holds it. -/
def second (x : Mutex Bool (Party n m ⊕ Party n' m') × Crew n m × Crew n' m') :
    Mutex Bool (Party n' m') × Crew n' m' :=
  (x.1.view Sum.getRight?, x.2.2)

/-- The next message for the consumers is there, and long enough. -/
def Crew.Ready (s : Crew n m) : Prop := ∃ msg ∈ s.queue.head?, msg.Valid

instance (s : Crew n m) : Decidable s.Ready :=
  match hhead : s.queue.head? with
  | some msg => decidable_of_iff msg.Valid (by simp [Crew.Ready, hhead])
  | none => .isFalse (by simp [Crew.Ready, hhead])

/-- If a consumer of the first client takes the lock, and the flag is true, then the next message
for it is there, and long enough. -/
def Harmless (x : Mutex Bool (Party n m ⊕ Party n' m') × Crew n m × Crew n' m') :
    Act n m ⊕ Act n' m' → Prop
  | .inl (.consumer i _) =>
    x.2.1.consumers i = .lock → x.1.owner = none → x.1.value = true → x.2.1.Ready
  | _ => True

instance (x : Mutex Bool (Party n m ⊕ Party n' m') × Crew n m × Crew n' m') :
    (a : Act n m ⊕ Act n' m') → Decidable (Harmless x a)
  | .inl (.consumer _ _) =>
    have : Decidable (x.1.owner = none) := decidable_of_iff _ Option.isNone_iff_eq_none
    inferInstanceAs (Decidable (_ → _))
  | .inl (.loop _) | .inl (.tell _) | .inl .hangUp | .inl (.producer _ _) | .inl .waker
  | .inl .control | .inr _ => .isTrue trivial

/-- The threads that hold the lock are its owner. -/
def Separate (x : Mutex Bool (Party n m ⊕ Party n' m') × Crew n m × Crew n' m') : Prop :=
  x.1.Exclusive (Sum.elim x.2.1.holds x.2.2.holds)

/-! ## Steps -/

variable {x x' : Mutex Bool (Party n m ⊕ Party n' m') × Crew n m × Crew n' m'}

theorem separate_step {a : Act n m ⊕ Act n' m'} (h : Separate x)
    (hstep : joint json client client' x a = some x') : Separate x' := by
  cases a with
  | inl a =>
    obtain ⟨⟨flag, s⟩, hfirst, rfl⟩ := Option.map_eq_some_iff.mp hstep
    refine exclusive_of_step h hfirst (fun _ => rfl) (fun _ => rfl) fun q hq => ?_
    cases q with
    | inl p => exact absurd rfl (hq p)
    | inr p => rfl
  | inr a =>
    obtain ⟨⟨flag, s⟩, hsecond, rfl⟩ := Option.map_eq_some_iff.mp hstep
    refine exclusive_of_step h hsecond (fun _ => rfl) (fun _ => rfl) fun q hq => ?_
    cases q with
    | inl p => rfl
    | inr p => exact absurd rfl (hq p)

theorem separate_start (n m n' m' : ℕ) (client client' : Client) (alloc alloc' : Alloc)
    (clock clock' : ℕ) :
    Separate (jointStart n m n' m' client client' alloc alloc' clock clock') := by
  refine Mutex.exclusive_init true fun p => ?_
  cases p with
  | inl p => exact holds_start p
  | inr p => exact holds_start p

/-- While a consumer of the first client is about to receive, a message is there for it. -/
def Provided (x : Mutex Bool (Party n m ⊕ Party n' m') × Crew n m × Crew n' m') : Prop :=
  ∀ i, Receiving x.1 x.2.1 i → x.2.1.Ready

theorem provided_start (n m n' m' : ℕ) (client client' : Client) (alloc alloc' : Alloc)
    (clock clock' : ℕ) :
    Provided (jointStart n m n' m' client client' alloc alloc' clock clock') := by
  rintro i (⟨hi, -⟩ | hi) <;> cases hi

/-- A message that is there stays the next one when more are sent. -/
theorem ready_of_sent {s s' : Crew n m} {sent : List BytesMsg} (h : s.Ready)
    (htaken : s'.taken = s.taken) (hs : s'.loop.conn.s = s.loop.conn.s ++ sent) : s'.Ready := by
  obtain ⟨msg, hmsg, hvalid⟩ := h
  refine ⟨msg, ?_, hvalid⟩
  obtain ⟨queue, hqueue⟩ := List.head?_eq_some_iff.mp hmsg
  have hle := (take_of_queue hqueue).1
  rw [Crew.queue, htaken, hs, List.drop_append_of_le_length (by omega)]
  rw [Crew.queue] at hqueue
  rw [hqueue]
  rfl

/-- The view of the first client: the lock is free for it while the second one holds it. -/
def first (x : Mutex Bool (Party n m ⊕ Party n' m') × Crew n m × Crew n' m') :
    Mutex Bool (Party n m) × Crew n m :=
  (x.1.view Sum.getLeft?, x.2.1)

/-- In the view of the first client, too, the threads that hold the lock are its owner. -/
theorem Separate.first (h : Separate x) : (first x).1.Exclusive (first x).2.holds := by
  intro p
  have hp := h (.inl p)
  simp only [Sum.elim_inl] at hp
  rw [Threads.first, hp]
  simp only [Mutex.view]
  constructor
  · intro howner
    rw [howner]
    rfl
  · intro howner
    obtain ⟨q, hq, hleft⟩ := Option.bind_eq_some_iff.mp howner
    rw [hq, Sum.getLeft?_eq_some_iff.mp hleft]

/-- A harmless step of the first client keeps its consumers provided.

**Proof sketch.**  While a consumer is about to receive it holds the lock, so no other worker takes
a step, and the message stays; and the consumer that takes the lock is provided. -/
theorem provided_of_first {a : Act n m} (h : Provided x) (hseparate : Separate x)
    (hharmless : Harmless x (.inl a)) (hstep : joint json client client' x (.inl a) = some x') :
    Provided x' := by
  obtain ⟨⟨flag, s⟩, hfirst, rfl⟩ := Option.map_eq_some_iff.mp hstep
  have hexclusive := hseparate.first
  have hview : step json client id (first x).1 (first x).2 a = some (flag.view Sum.getLeft?, s) :=
    step_view hfirst fun _ => rfl
  intro i hi
  cases a with
  | loop l =>
    obtain ⟨s₁, hloop, heq⟩ := Option.map_eq_some_iff.mp hfirst
    cases heq
    have hloop := loop_step hloop
    obtain ⟨sent, hs, -⟩ := sent_of_step hloop.step
    exact ready_of_sent (h i (hi.before rfl (by rw [hloop.same]))) (by rw [hloop.same]) hs
  | tell msg =>
    cases tell_step hfirst
    exact h i hi
  | hangUp =>
    cases hfirst
    exact h i hi
  | consumer j what =>
    rcases receiving_of_consumer (consumer_step hfirst) hi with
      ⟨hij, hbefore⟩ | ⟨rfl, hloop, hsame, hplace⟩
    · have hholds : (first x).2.holds (.consumer i) = true := hbefore.holds
      exact absurd (Party.consumer.inj ((consumer_step hview).alone hexclusive hholds)) hij
    · have hready : x.2.1.Ready := by
        rcases hplace with ⟨hlock, hnone, hvalue⟩ | hbefore
        · exact hharmless hlock hnone hvalue
        · exact h i hbefore
      have hqueue : s.queue = x.2.1.queue := by
        rw [Crew.queue, hloop, hsame]
        rfl
      rw [Crew.Ready, hqueue]
      exact hready
  | producer j what =>
    have hbefore : Receiving x.1 x.2.1 i := by
      cases producer_step hfirst with
      | lock hadvance => exact hi.before hadvance.value.1 rfl
      | _ => exact hi
    have hholds : (first x).2.holds (.consumer i) = true := hbefore.holds
    cases (producer_step hview).alone hexclusive hholds
  | waker =>
    cases waker_step hfirst with
    | lock hadvance => exact h i (hi.before hadvance.value.1 rfl)
    | _ => exact h i hi
  | control =>
    cases control_step hfirst with
    | lock hadvance => exact h i (hi.before hadvance.value.1 rfl)
    | _ => exact h i hi

/-- While a thread of the first client holds the lock, no step of the second one concerns the
mutex. -/
theorem flag_of_second {a : Act n' m'} {p : Party n m} (h : Separate x)
    (hp : x.2.1.holds p = true) (hstep : joint json client client' x (.inr a) = some x') :
    x'.1 = x.1 := by
  obtain ⟨⟨flag, s⟩, hsecond, rfl⟩ := Option.map_eq_some_iff.mp hstep
  obtain ⟨hnone, hturn, -⟩ := turn_of_step hsecond
  have howner : x.1.owner = some (.inl p) := (h (.inl p)).mp hp
  cases hparty : a.party with
  | none => exact hnone hparty
  | some q =>
    have hq : x.2.2.holds q = false := by
      by_contra hq
      have hq : x.1.owner = some (.inr q) := (h (.inr q)).mp (Bool.eq_true_of_not_eq_false hq)
      rw [howner] at hq
      cases hq
    have hturn := hturn q hparty
    rw [hq] at hturn
    generalize s.holds q = b at hturn
    cases hturn with
    | idle => rfl
    | acquire hfree =>
      rw [howner] at hfree
      cases hfree

/-- So does a step of the second client. -/
theorem provided_of_second {a : Act n' m'} (h : Provided x) (hseparate : Separate x)
    (hstep : joint json client client' x (.inr a) = some x') : Provided x' := by
  have hcrew : x'.2.1 = x.2.1 := by
    obtain ⟨y, -, rfl⟩ := Option.map_eq_some_iff.mp hstep
    rfl
  intro i hi
  have hholds : x.2.1.holds (.consumer i) = true := hcrew ▸ hi.holds
  rw [hcrew]
  refine h i ?_
  rwa [Receiving, flag_of_second hseparate hholds hstep, hcrew] at hi

/-- While its consumers are provided, a step of the first client does not touch the flag. -/
theorem value_of_provided {a : Act n m} {flag : Mutex Bool (Party n m ⊕ Party n' m')}
    {s : Crew n m} (hprovided : Provided x)
    (hstep : step json client .inl x.1 x.2.1 a = some (flag, s)) :
    flag.value = x.1.value ∧ flag.poisoned = x.1.poisoned := by
  cases a with
  | loop l =>
    obtain ⟨s₁, -, heq⟩ := Option.map_eq_some_iff.mp hstep
    cases heq
    exact ⟨rfl, rfl⟩
  | tell msg =>
    cases tell_step hstep
    exact ⟨rfl, rfl⟩
  | hangUp =>
    cases hstep
    exact ⟨rfl, rfl⟩
  | consumer i what =>
    have hvalid : ∀ {msg : BytesMsg} {queue : List BytesMsg}, x.2.1.consumers i = .inside .recv →
        x.2.1.queue = msg :: queue → msg.Valid := by
      intro msg queue hx hqueue
      obtain ⟨msg', hhead, hvalid⟩ := hprovided i (.inr hx)
      rw [hqueue] at hhead
      cases hhead
      exact hvalid
    cases consumer_step hstep with
    | closed hx hqueue hnil => exact absurd hnil (hvalid hx hqueue).handled.1
    | short hx hqueue _ hmsg =>
      obtain ⟨y, hok⟩ := (hvalid hx hqueue).handled.2
      rw [hmsg] at hok
      cases hok
    | lock hadvance => exact hadvance.value
    | _ => exact ⟨rfl, rfl⟩
  | producer j what =>
    cases producer_step hstep with
    | lock hadvance => exact hadvance.value
    | _ => exact ⟨rfl, rfl⟩
  | waker =>
    cases waker_step hstep with
    | lock hadvance => exact hadvance.value
    | _ => exact ⟨rfl, rfl⟩
  | control =>
    cases control_step hstep with
    | lock hadvance => exact hadvance.value
    | _ => exact ⟨rfl, rfl⟩

/-- While its consumers are provided, a step of the first client is nothing to the second one. -/
theorem second_of_first {a : Act n m} (h : Separate x) (hprovided : Provided x)
    (hstep : joint json client client' x (.inl a) = some x') : second x' = second x := by
  obtain ⟨⟨flag, s⟩, hfirst, rfl⟩ := Option.map_eq_some_iff.mp hstep
  obtain ⟨hvalue, hpoisoned⟩ := value_of_provided hprovided hfirst
  obtain ⟨hnone, hturn, -⟩ := turn_of_step hfirst
  have howner : flag.owner.bind Sum.getRight? = x.1.owner.bind Sum.getRight? := by
    cases hparty : a.party with
    | none => rw [hnone hparty]
    | some p =>
      rcases (hturn p hparty).owner with hsame | ⟨hfree, htaken⟩ | ⟨hheld, hreleased⟩
      · rw [hsame]
      · rw [hfree, htaken]
        rfl
      · rw [hreleased, (h (.inl p)).mp hheld]
        rfl
  simp only [second, Mutex.view, hvalue, hpoisoned, howner]

/-- A step of the second client is one of its own. -/
theorem second_of_second {a : Act n' m'}
    (hstep : joint json client client' x (.inr a) = some x') :
    machine json client' (second x) a = some (second x') := by
  obtain ⟨⟨flag, s⟩, hsecond, rfl⟩ := Option.map_eq_some_iff.mp hstep
  exact step_view hsecond fun _ => rfl

/-- The threads of the second client among those of both. -/
def ours (q : Party n' m') : Option (Party n m ⊕ Party n' m') := some (.inr q)

/-- What the second client sees is all there is, if no thread of the first one holds the lock. -/
theorem view_ours (flag : Mutex Bool (Party n m ⊕ Party n' m'))
    (hfree : ∀ p, flag.owner ≠ some (.inl p)) : (flag.view Sum.getRight?).view ours = flag := by
  obtain ⟨value, poisoned, owner⟩ := flag
  rcases owner with _ | p | p
  · rfl
  · exact absurd rfl (hfree p)
  · rfl

/-- The threads of the second client see all of its mutex. -/
theorem ours_view (flag : Mutex Bool (Party n' m')) :
    (flag.view (ours : Party n' m' → Option (Party n m ⊕ Party n' m'))).view Sum.getRight? =
      flag := by
  obtain ⟨value, poisoned, owner⟩ := flag
  cases owner <;> rfl

/-- A step the second client could take alone it can take, if no thread of the first one holds the
lock. -/
theorem exists_second {a : Act n' m'} {y : Mutex Bool (Party n' m') × Crew n' m'}
    (hfree : ∀ p, x.1.owner ≠ some (.inl p)) (hstep : machine json client' (second x) a = some y) :
    ∃ x', joint json client client' x (.inr a) = some x' ∧ second x' = y := by
  obtain ⟨flag, s⟩ := y
  have hjoint : step json client' .inr x.1 x.2.2 a = some (flag.view ours, s) := by
    rw [← view_ours x.1 hfree]
    exact step_view hstep fun _ => rfl
  refine ⟨(flag.view ours, x.2.1, s), ?_, ?_⟩
  · rw [joint, hjoint]
    rfl
  · rw [second, ours_view]

/-! ## The lock is let go -/

/-- How many steps a consumer inside the lock keeps it, if there is a message for it. -/
def Consuming.turns : Consuming → ℕ
  | recv => 3
  | handler _ => 2
  | sentinel _ => 3

/-- The same of a producer. -/
def Producing.turns : Producing → ℕ
  | publish => 3
  | sentinel => 2

/-- How many steps a thread keeps the lock. -/
def Crew.turns (s : Crew n m) : Party n m → ℕ
  | .consumer i => (s.consumers i).turns Consuming.turns
  | .producer j => (s.producers j).turns Producing.turns
  | .waker => s.waker.turns Empty.elim
  | .control => s.control.turns Empty.elim

/-- No thread keeps it for more than four. -/
theorem Crew.turns_le (s : Crew n m) (p : Party n m) : s.turns p ≤ 4 := by
  cases p with
  | consumer i => exact Place.turns_le (fun b => by cases b <;> simp [Consuming.turns]) _
  | producer j => exact Place.turns_le (fun b => by cases b <;> simp [Producing.turns]) _
  | waker => exact Place.turns_le Empty.rec _
  | control => exact Place.turns_le Empty.rec _

/-- A thread that holds the lock has a step to take before it lets it go. -/
theorem Crew.turns_pos {s : Crew n m} {p : Party n m} (hp : s.holds p = true) : 0 < s.turns p := by
  cases p with
  | consumer i => exact Place.turns_pos (fun b => by cases b <;> simp [Consuming.turns]) hp
  | producer j => exact Place.turns_pos (fun b => by cases b <;> simp [Producing.turns]) hp
  | waker => exact Place.turns_pos Empty.rec hp
  | control => exact Place.turns_pos Empty.rec hp

section Turns

variable {me : Party n m → P} {flag : Mutex Bool P} {s : Crew n m}

/-- A thread lets the lock go, or is nearer to it. -/
def Nearer (flag flag' : Mutex Bool P) (s s' : Crew n m) (p : Party n m) : Prop :=
  flag'.owner = none ∨ flag'.owner = flag.owner ∧ s'.holds p = true ∧ s'.turns p < s.turns p

/-- A consumer that holds the lock can take a step, and lets it go or is nearer to it, if there is a
message for it when it is about to receive. -/
theorem exists_nearer_consumer {i : Fin n} (hp : s.holds (.consumer i) = true)
    (hready : s.consumers i = .inside .recv → s.Ready) :
    ∃ flag' s', stepConsumer me flag s i .next = some (flag', s') ∧
      Nearer flag flag' s s' (.consumer i) := by
  have hmoves : ∀ (flag' : Mutex Bool P) (s₁ : Crew n m) (x : Place Empty Consuming),
      (flag'.owner = none ∨ flag'.owner = flag.owner ∧ x.critical = true ∧
        x.turns Consuming.turns < (s.consumers i).turns Consuming.turns) →
      Nearer flag flag' s (s₁.setConsumer i x) (.consumer i) := by
    rintro flag' s₁ x (hfree | ⟨howner, hcritical, hlt⟩)
    · exact .inl hfree
    · refine .inr ⟨howner, ?_, ?_⟩
      · rw [Crew.holds_setConsumer]
        exact hcritical
      · simpa [Crew.turns, Crew.setConsumer] using hlt
  by_cases hinside : ∃ b, s.consumers i = .inside b
  · obtain ⟨b, hx⟩ := hinside
    rw [hx] at hmoves
    cases b with
    | recv =>
      -- the message is there and long enough, so the handler gets it
      obtain ⟨msg, hhead, hvalid⟩ := hready hx
      obtain ⟨queue, hqueue⟩ := List.head?_eq_some_iff.mp hhead
      obtain ⟨hne, m, hmsg⟩ := hvalid.handled
      refine ⟨flag, Crew.setConsumer
        { s with taken := s.taken + 1, received := s.received ++ [(i, msg)] } i
        (.inside (.handler false)), ?_, hmoves _ _ _ (.inr ⟨rfl, rfl, by decide⟩)⟩
      simp [stepConsumer, hx, hqueue, hne, hmsg]
    | handler closing =>
      refine ⟨flag, s.setConsumer i (if closing then .leave else .unlock), ?_,
        hmoves _ _ _ (.inr ⟨rfl, ?_⟩)⟩
      · simp only [stepConsumer, hx]
      · cases closing <;> decide
    | sentinel closing =>
      refine ⟨flag, Crew.setConsumer { s with sentinels := s.sentinels + 1 } i
        (.inside (.handler closing)), ?_, hmoves _ _ _ (.inr ⟨rfl, rfl, Nat.lt_succ_self 2⟩)⟩
      simp only [stepConsumer, hx]
  · have hinside : ∀ b, s.consumers i ≠ .inside b := fun b hb => hinside ⟨b, hb⟩
    obtain ⟨flag', x, hadvance, hnearer⟩ := @Place.exists_advance _ _ _ (s.consumers i)
      (.inside .recv) .lock (me (.consumer i)) flag Consuming.turns hp hinside rfl (by decide)
    refine ⟨flag', s.setConsumer i x, ?_, hmoves _ _ _ hnearer⟩
    cases hx : s.consumers i with
    | inside b => exact absurd hx (hinside b)
    | _ =>
      rw [hx] at hadvance
      simp [stepConsumer, hx, hadvance]

/-- So can a producer, whatever it publishes. -/
theorem exists_nearer_producer {j : Fin m} (hp : s.holds (.producer j) = true) :
    ∃ what flag' s', stepProducer me flag s j what = some (flag', s') ∧
      Nearer flag flag' s s' (.producer j) := by
  have hmoves : ∀ (flag' : Mutex Bool P) (s₁ : Crew n m) (x : Place Empty Producing),
      (flag'.owner = none ∨ flag'.owner = flag.owner ∧ x.critical = true ∧
        x.turns Producing.turns < (s.producers j).turns Producing.turns) →
      Nearer flag flag' s (s₁.setProducer j x) (.producer j) := by
    rintro flag' s₁ x (hfree | ⟨howner, hcritical, hlt⟩)
    · exact .inl hfree
    · refine .inr ⟨howner, ?_, ?_⟩
      · rw [Crew.holds_setProducer]
        exact hcritical
      · simpa [Crew.turns, Crew.setProducer] using hlt
  by_cases hinside : ∃ b, s.producers j = .inside b
  · obtain ⟨b, hx⟩ := hinside
    rw [hx] at hmoves
    cases b with
    | publish =>
      refine ⟨.send NsqCmd.nop.asCmd, flag, (s.push NsqCmd.nop.asCmd).setProducer j
        (.inside .sentinel), ?_, hmoves _ _ _ (.inr ⟨rfl, rfl, by decide⟩)⟩
      simp only [stepProducer, hx]
    | sentinel =>
      refine ⟨.next, flag, Crew.setProducer { s with sentinels := s.sentinels + 1 } j .unlock, ?_,
        hmoves _ _ _ (.inr ⟨rfl, rfl, by decide⟩)⟩
      simp only [stepProducer, hx]
  · have hinside : ∀ b, s.producers j ≠ .inside b := fun b hb => hinside ⟨b, hb⟩
    obtain ⟨flag', x, hadvance, hnearer⟩ := @Place.exists_advance _ _ _ (s.producers j)
      (.inside .publish) .lock (me (.producer j)) flag Producing.turns hp hinside rfl (by decide)
    refine ⟨.next, flag', s.setProducer j x, ?_, hmoves _ _ _ hnearer⟩
    cases hx : s.producers j with
    | inside b => exact absurd hx (hinside b)
    | _ =>
      rw [hx] at hadvance
      simp [stepProducer, hx, hadvance]

/-- The thread that holds the lock can take a step, and lets it go or is nearer to it, if there is a
message for a consumer that is about to receive. -/
theorem exists_nearer {p : Party n m} (hp : s.holds p = true)
    (hready : ∀ i, Receiving flag s i → s.Ready) :
    ∃ (a : Act n m) (flag' : Mutex Bool P) (s' : Crew n m), a.party = some p ∧
      step json client me flag s a = some (flag', s') ∧ Nearer flag flag' s s' p := by
  cases p with
  | consumer i =>
    obtain ⟨flag', s', hstep, hnearer⟩ := exists_nearer_consumer hp fun hx => hready i (.inr hx)
    exact ⟨.consumer i .next, flag', s', rfl, hstep, hnearer⟩
  | producer j =>
    obtain ⟨what, flag', s', hstep, hnearer⟩ := exists_nearer_producer hp
    exact ⟨.producer j what, flag', s', rfl, hstep, hnearer⟩
  | waker =>
    obtain ⟨flag', x, hadvance, hnearer⟩ := @Place.exists_advance _ _ _ s.waker .unlock
      (.outside .recv) (me .waker) flag Empty.elim hp (fun b => b.elim) rfl (by decide)
    refine ⟨.waker, flag', { s with waker := x }, rfl, ?_, hnearer⟩
    cases hx : s.waker with
    | outside b =>
      have hplace : s.waker.critical = true := hp
      rw [hx] at hplace
      cases hplace
    | _ =>
      rw [hx] at hadvance
      simp [step, stepWaker, hx, hadvance]
  | control =>
    obtain ⟨flag', x, hadvance, hnearer⟩ := @Place.exists_advance _ _ _ s.control .unlock
      (.outside .recv) (me .control) flag Empty.elim hp (fun b => b.elim) rfl (by decide)
    refine ⟨.control, flag', { s with control := x }, rfl, ?_, hnearer⟩
    cases hx : s.control with
    | outside b =>
      have hplace : s.control.critical = true := hp
      rw [hx] at hplace
      cases hplace
    | _ =>
      rw [hx] at hadvance
      simp [step, stepControl, hx, hadvance]

end Turns

/-- The thread of the first client that holds the lock lets it go within four steps of its own,
which are harmless and nothing to the second client.

**Proof sketch.**  Induction on the steps that it keeps the lock (`exists_nearer`). -/
theorem exists_release {p : Party n m} (hseparate : Separate x) (hprovided : Provided x)
    (hp : x.2.1.holds p = true) : ∃ (bs : List (Act n m))
      (x' : Mutex Bool (Party n m ⊕ Party n' m') × Crew n m × Crew n' m'),
      bs.length ≤ x.2.1.turns p ∧ (∀ b ∈ bs, b.party = some p) ∧
      Machine.Run (joint json client client') Harmless x (bs.map Sum.inl) x' ∧
      second x' = second x ∧ x'.1.owner = none := by
  induction hturns : x.2.1.turns p using Nat.strong_induction_on generalizing x with
  | _ k ih =>
    obtain ⟨a, flag', s', hparty, hfirst, hnearer⟩ :=
      @exists_nearer n m _ json client Sum.inl x.1 x.2.1 p hp hprovided
    have hstep : joint json client client' x (.inl a) = some (flag', s', x.2.2) := by
      rw [joint, hfirst]
      rfl
    have hharmless : Harmless x (.inl a) := by
      cases a with
      | consumer i what =>
        intro hlock
        cases hparty
        rw [Crew.holds, hlock] at hp
        cases hp
      | _ => trivial
    have hsecond := second_of_first hseparate hprovided hstep
    have hpositive := Crew.turns_pos hp
    rcases hnearer with hfree | ⟨-, hholds, hlt⟩
    · exact ⟨[a], _, hturns ▸ hpositive, by simpa using hparty,
        .cons hharmless hstep .nil, hsecond, hfree⟩
    · obtain ⟨bs, x', hlength, hparties, hrun, hsame, hfree⟩ := ih _ (hturns ▸ hlt)
        (separate_step hseparate hstep) (provided_of_first hprovided hseparate hharmless hstep)
        hholds rfl
      refine ⟨a :: bs, x', ?_, List.forall_mem_cons.mpr ⟨hparty, hparties⟩,
        .cons hharmless hstep hrun, hsame.trans hsecond, hfree⟩
      rw [List.length_cons, ← hturns]
      exact Nat.succ_le_of_lt (Nat.lt_of_le_of_lt hlength hlt)

/-! ## Runs -/

/-- The steps of the second client. -/
def seconds (as : List (Act n m ⊕ Act n' m')) : List (Act n' m') := as.filterMap Sum.getRight?

/-- The second client is isolated from the first one: it is where it would be alone after its own
steps, so it has handled the same messages; every step that it could take alone it can take, at the
latest when the thread of the first client that holds the lock has taken four steps and let it go;
and before its first step it is connected. -/
structure Isolated (json : Json) (client client' : Client) (alloc : Alloc) (clock : ℕ)
    (as : List (Act n m ⊕ Act n' m'))
    (x : Mutex Bool (Party n m ⊕ Party n' m') × Crew n m × Crew n' m') : Prop where
  alone : Machine.Run (machine json client') Machine.anything (start n' m' client' alloc clock)
    (seconds as) (second x)
  free : ∀ a y, machine json client' (second x) a = some y → ∃ (bs : List (Act n m))
    (x₁ x₂ : Mutex Bool (Party n m ⊕ Party n' m') × Crew n m × Crew n' m'),
    bs.length ≤ 4 ∧ (∀ b ∈ bs, ∃ p, b.party = some p ∧ x.1.owner = some (.inl p)) ∧
    Machine.Run (joint json client client') Harmless x (bs.map .inl) x₁ ∧
    second x₁ = second x ∧ joint json client client' x₁ (.inr a) = some x₂ ∧ second x₂ = y
  connected : seconds as = [] → x.1.value = true

/-- Clients are isolated.  Take two clients, each with any numbers of consumer and producer threads,
and any interleaving of their steps, as long as each step is harmless: a consumer of the first
client that takes the lock has a message there, which is neither empty nor too short.  Then the
second client is isolated from the first one.

**Proof sketch.**  A step of the second client is one of its own, in the view of the mutex that
knows only its threads; a harmless step of the first client does not change that view, since the
message that a consumer receives is the one for which it took the lock.  The other way round, if the
first client does not hold the lock then the second one sees all of the mutex; and if it does, then
the thread that holds the lock does not wait for anything, and lets it go (`exists_release`). -/
theorem isolated {alloc alloc' : Alloc} {clock clock' : ℕ}
    {as : List (Act n m ⊕ Act n' m')}
    {x : Mutex Bool (Party n m ⊕ Party n' m') × Crew n m × Crew n' m'}
    (hrun : Machine.Run (joint json client client') Harmless
      (jointStart n m n' m' client client' alloc alloc' clock clock') as x) :
    Isolated json client client' alloc' clock' as x := by
  have hall : Separate x ∧ Provided x ∧ Machine.Run (machine json client') Machine.anything
      (start n' m' client' alloc' clock') (seconds as) (second x) := by
    induction hrun with
    | nil =>
      exact ⟨separate_start n m n' m' client client' alloc alloc' clock clock',
        provided_start n m n' m' client client' alloc alloc' clock clock', .nil⟩
    | @snoc as x x' a _ hharmless hstep ih =>
      obtain ⟨hseparate, hprovided, halone⟩ := ih
      refine ⟨separate_step hseparate hstep, ?_, ?_⟩
      · cases a with
        | inl a => exact provided_of_first hprovided hseparate hharmless hstep
        | inr a => exact provided_of_second hprovided hseparate hstep
      · cases a with
        | inl a =>
          have hseconds : seconds (as ++ [.inl a]) = seconds as := by simp [seconds]
          rw [hseconds, second_of_first hseparate hprovided hstep]
          exact halone
        | inr a =>
          have hseconds : seconds (as ++ [.inr a]) = seconds as ++ [a] := by simp [seconds]
          rw [hseconds]
          exact halone.snoc trivial (second_of_second hstep)
  obtain ⟨hseparate, hprovided, halone⟩ := hall
  refine ⟨halone, fun a y hstep => ?_, fun hnone => ?_⟩
  · by_cases hheld : ∃ p, x.1.owner = some (.inl p)
    · obtain ⟨p, howner⟩ := hheld
      obtain ⟨bs, x₁, hlength, hparties, hreleased, hsame, hfree⟩ :=
        exists_release hseparate hprovided ((hseparate (.inl p)).mpr howner)
      rw [← hsame] at hstep
      obtain ⟨x₂, hjoint, hsecond⟩ :=
        exists_second (fun q hq => by rw [hfree] at hq; cases hq) hstep
      exact ⟨bs, x₁, x₂, hlength.trans (x.2.1.turns_le p), fun b hb => ⟨p, hparties b hb, howner⟩,
        hreleased, hsame, hjoint, hsecond⟩
    · obtain ⟨x₂, hjoint, hsecond⟩ := exists_second (fun p hp => hheld ⟨p, hp⟩) hstep
      exact ⟨[], x, x₂, Nat.zero_le 4, by simp, .nil, rfl, hjoint, hsecond⟩
  · rw [hnone] at halone
    rw [show x.1.value = (second x).1.value from rfl, Machine.run_nil.mp halone]
    rfl

set_option maxRecDepth 4000 in
/-- A client whose consumer takes the lock for a message and is in its handler, and one whose
consumer waits for the lock meanwhile: it gets it after two steps of the first one. -/
theorem isolated_waiting :
    ∃ x x₂ : Mutex Bool (Party 1 0 ⊕ Party 1 0) × Crew 1 0 × Crew 1 0,
      x.1.owner = some (.inl (.consumer 0)) ∧ x.2.2.consumers 0 = .lock ∧
      Machine.Run (machine serde ⟨"t", "d", none, 1, .default none⟩) Machine.anything
        (start 1 0 ⟨"t", "d", none, 1, .default none⟩ .exact 0)
        [.tell .getIsConnected, .control] (second x) ∧
      (second x₂).1.owner = some (.consumer 0) ∧ (second x₂).2.consumers 0 = .test := by
  have hexec : Machine.exec (joint serde ⟨"t", "c", none, 1, .default none⟩
        ⟨"t", "d", none, 1, .default none⟩) Harmless
      (jointStart 1 0 1 0 ⟨"t", "c", none, 1, .default none⟩ ⟨"t", "d", none, 1, .default none⟩
        .exact .exact 0 0)
      ((joining ++ writing ++ receiving "0123456789abcdef" []).map (.inl ∘ .loop) ++
        [.inl (.consumer 0 .next), .inr (.tell .getIsConnected), .inl (.consumer 0 .next),
          .inl (.consumer 0 .next), .inr .control]) = some _ := rfl
  have hisolated := isolated (Machine.Run.of_exec hexec)
  obtain ⟨-, -, x₂, -, -, -, -, -, hsecond⟩ := hisolated.free (.consumer 0 .next) _ rfl
  refine ⟨_, x₂, rfl, rfl, hisolated.alone, ?_, ?_⟩
  · rw [hsecond]
    rfl
  · rw [hsecond]
    rfl

/-- The first client closes, and the consumer of the second one, to which nothing was sent, leaves
its loop; alone it would wait for a message.  And before its first step the second client is not
connected. -/
theorem not_isolated_close :
    ∃ (json : Json) (client : Client) (as as' : List (Act 1 0 ⊕ Act 1 0))
      (x x' : Mutex Bool (Party 1 0 ⊕ Party 1 0) × Crew 1 0 × Crew 1 0),
      Machine.Run (joint json client client) Machine.anything
        (jointStart 1 0 1 0 client client .exact .exact 0 0) as x ∧
      seconds as = [] ∧ x.1.value = false ∧ ¬ Isolated json client client .exact 0 as x ∧
      Machine.Run (joint json client client) Machine.anything
        (jointStart 1 0 1 0 client client .exact .exact 0 0) as' x' ∧
      x'.2.2.consumers 0 = .done ∧ x'.2.2.loop.conn.s = [] ∧
      ¬ Isolated json client client .exact 0 as' x' := by
  have hclosed : Machine.exec (joint serde ⟨"t", "c", none, 1, .default none⟩
        ⟨"t", "c", none, 1, .default none⟩) Machine.anything
      (jointStart 1 0 1 0 ⟨"t", "c", none, 1, .default none⟩ ⟨"t", "c", none, 1, .default none⟩
        .exact .exact 0 0)
      [.inl (.tell .close), .inl .control, .inl .control, .inl .control,
        .inl (.loop (.poll [⟨.cmd, .readable⟩] 0)),
        .inl (.loop (.event ⟨.ok [], fun _ => .ok 0, true⟩)), .inl (.consumer 0 .next),
        .inl (.consumer 0 .next), .inl (.consumer 0 .next), .inl (.consumer 0 .next),
        .inl (.consumer 0 .next)] = some _ := rfl
  have hrun := Machine.Run.of_exec hclosed
  have hstep := hrun.snoc (a := Sum.inr (Act.consumer 0 Do.next)) trivial rfl
  have hstep := hstep.snoc (a := Sum.inr (Act.consumer 0 Do.next)) trivial rfl
  have hleft := hstep.snoc (a := Sum.inr (Act.consumer 0 Do.next)) trivial rfl
  have halone : Machine.exec (machine serde ⟨"t", "c", none, 1, .default none⟩)
      Machine.anything
      (start 1 0 ⟨"t", "c", none, 1, .default none⟩ .exact 0)
      [.consumer 0 .next, .consumer 0 .next] = some _ := rfl
  refine ⟨_, _, _, _, _, _, hrun, rfl, rfl, fun h => absurd (h.connected rfl) nofun,
    hleft, rfl, rfl, fun h => ?_⟩
  have hthrice : Machine.Run _ _ _ ([Act.consumer 0 Do.next, Act.consumer 0 Do.next] ++
      [Act.consumer 0 Do.next]) _ := h.alone
  obtain ⟨y, hwaits, -, hleaves⟩ := Machine.run_concat.mp hthrice
  obtain ⟨rfl, -⟩ := hwaits.and (Machine.Run.of_exec halone)
  cases hleaves

end Threads

end NsqClient
