import Mathlib.Algebra.Order.BigOperators.Group.Finset
import Mathlib.Data.Fintype.Card
import Mathlib.Algebra.Group.Action.Defs
import NsqClient.Jobs
import NsqClient.Lib.Monitor

set_option relaxedAutoImplicit false
set_option autoImplicit false

/-!
# How the workers end

Once the flag is false, or the mutex is poisoned, the threads of a client wind down: no call of
`on_msg`, `on_close` or `publish` begins any more, the threads have only so many steps ahead of
them, whatever the schedule, and when none of them can take a step every worker has left its loop.

What is not bounded is the code of the application: a call of `on_close` may be under way, and it
may send as many commands as it wants.

## Main definitions

* `NsqClient.Threads.Crew.ahead` — how many steps the threads have ahead of them.

## Main results

* `NsqClient.Threads.ahead_step` — every step of a thread takes one of them.
* `NsqClient.Threads.winds_down` — what is left of a run.
-/

namespace NsqClient

namespace Threads

open Mutex (Place)

variable {n m : ℕ} {json : Json} {client : Client}

/-! ## Steps ahead -/

/-- Of a consumer in a handler: the call and the way out of the loop. -/
def Consuming.ahead : Consuming → ℕ
  | recv => 0
  | handler true => 2
  | sentinel true => 3
  | handler false => 5
  | sentinel false => 6

/-- Of a producer between the two sends. -/
def Producing.ahead : Producing → ℕ
  | publish => 0
  | sentinel => 5

def Waking.ahead : Waking → ℕ
  | recv => 5
  | wake => 4

def Controlling.ahead : Controlling → ℕ
  | recv => 6
  | send => 5
  | wake => 4

/-- How many steps the threads have ahead of them once the workers are stopped, except for what the
code of the application sends. -/
def Crew.ahead (s : Crew n m) : ℕ :=
  ∑ i, (s.consumers i).ahead 3 Empty.elim Consuming.ahead +
    ∑ j, (s.producers j).ahead 3 Empty.elim Producing.ahead +
    s.waker.ahead 5 Waking.ahead Empty.elim + s.control.ahead 6 Controlling.ahead Empty.elim

/-- Moving one thread changes the sum at its place. -/
theorem sum_update {k : ℕ} {α : Type} (g : Fin k → α) (f : α → ℕ) (i : Fin k) (x : α) :
    ∑ j, f (Function.update g i x j) + f (g i) = ∑ j, f (g j) + f x := by
  have hrest : ∑ j ∈ Finset.univ.erase i, f (Function.update g i x j) =
      ∑ j ∈ Finset.univ.erase i, f (g j) := by
    apply Finset.sum_congr rfl
    intro j hj
    rw [Function.update_of_ne (Finset.ne_of_mem_erase hj)]
  have hnew := Finset.add_sum_erase Finset.univ (fun j => f (Function.update g i x j))
    (Finset.mem_univ i)
  have hold := Finset.add_sum_erase Finset.univ (fun j => f (g j)) (Finset.mem_univ i)
  simp only [Function.update_self] at hnew
  omega

/-- A sum over the workers. -/
def Crew.workers (f : Place Empty Consuming → ℕ) (g : Place Empty Producing → ℕ) (s : Crew n m) :
    ℕ := ∑ i, f (s.consumers i) + ∑ j, g (s.producers j)

section Workers

variable (s : Crew n m) (f : Place Empty Consuming → ℕ) (g : Place Empty Producing → ℕ)

/-- Moving a consumer. -/
theorem Crew.workers_setConsumer (i : Fin n) (x : Place Empty Consuming) :
    (s.setConsumer i x).workers f g + f (s.consumers i) = s.workers f g + f x := by
  have hsum := sum_update s.consumers f i x
  simp only [workers, setConsumer]
  omega

/-- Moving a producer. -/
theorem Crew.workers_setProducer (j : Fin m) (x : Place Empty Producing) :
    (s.setProducer j x).workers f g + g (s.producers j) = s.workers f g + g x := by
  have hsum := sum_update s.producers g j x
  simp only [workers, setProducer]
  omega

end Workers

/-- How many steps the two threads beside the workers have ahead of them. -/
def Crew.beside (s : Crew n m) : ℕ :=
  s.waker.ahead 5 Waking.ahead Empty.elim + s.control.ahead 6 Controlling.ahead Empty.elim

/-- The steps ahead of the workers and of the threads beside them. -/
theorem Crew.ahead_eq (s : Crew n m) : s.ahead =
    s.workers (fun x => x.ahead 3 Empty.elim Consuming.ahead)
      (fun x => x.ahead 3 Empty.elim Producing.ahead) + s.beside :=
  Nat.add_assoc _ _ _

/-- Moving a consumer. -/
theorem Crew.ahead_setConsumer (s : Crew n m) (i : Fin n) (x : Place Empty Consuming) :
    (s.setConsumer i x).ahead + (s.consumers i).ahead 3 Empty.elim Consuming.ahead =
      s.ahead + x.ahead 3 Empty.elim Consuming.ahead := by
  have hsum := s.workers_setConsumer (fun x => x.ahead 3 Empty.elim Consuming.ahead)
    (fun x => x.ahead 3 Empty.elim Producing.ahead) i x
  have hbeside : (s.setConsumer i x).beside = s.beside := rfl
  rw [ahead_eq, ahead_eq]
  omega

/-- Moving a producer. -/
theorem Crew.ahead_setProducer (s : Crew n m) (j : Fin m) (x : Place Empty Producing) :
    (s.setProducer j x).ahead + (s.producers j).ahead 3 Empty.elim Producing.ahead =
      s.ahead + x.ahead 3 Empty.elim Producing.ahead := by
  have hsum := s.workers_setProducer (fun x => x.ahead 3 Empty.elim Consuming.ahead)
    (fun x => x.ahead 3 Empty.elim Producing.ahead) j x
  have hbeside : (s.setProducer j x).beside = s.beside := rfl
  rw [ahead_eq, ahead_eq]
  omega

/-- There is a bound for them. -/
theorem Crew.ahead_le (s : Crew n m) : s.ahead ≤ 6 * n + 5 * m + 13 := by
  have hconsumers : ∀ x : Place Empty Consuming, x.ahead 3 Empty.elim Consuming.ahead ≤ 6 := by
    apply Place.ahead_le (by omega) (by omega) nofun
    rintro (_ | (_ | _) | (_ | _)) <;> simp only [Consuming.ahead] <;> omega
  have hproducers : ∀ x : Place Empty Producing, x.ahead 3 Empty.elim Producing.ahead ≤ 5 := by
    apply Place.ahead_le (by omega) (by omega) nofun
    rintro (_ | _) <;> simp only [Producing.ahead] <;> omega
  have hwaker : s.waker.ahead 5 Waking.ahead Empty.elim ≤ 6 := by
    refine Place.ahead_le (by omega) (by omega) ?_ nofun s.waker
    rintro (_ | _) <;> simp only [Waking.ahead] <;> omega
  have hcontrol : s.control.ahead 6 Controlling.ahead Empty.elim ≤ 7 := by
    refine Place.ahead_le (by omega) (by omega) ?_ nofun s.control
    rintro (_ | _ | _) <;> simp only [Controlling.ahead] <;> omega
  have hsums := Nat.add_le_add
    (Finset.sum_le_card_nsmul Finset.univ _ 6 fun i _ => hconsumers (s.consumers i))
    (Finset.sum_le_card_nsmul Finset.univ _ 5 fun j _ => hproducers (s.producers j))
  simp only [Finset.card_univ, Fintype.card_fin, smul_eq_mul] at hsums
  simp only [ahead]
  omega

/-! ## Steps of stopped workers -/

section Stopped

variable {x x' : Mutex Bool (Party n m) × Crew n m}

/-- Of stopped workers, a thread that holds the lock finds the flag false. -/
theorem Placed.value_of_holds (h : Placed x) (hstopped : Stopped x.1) {p : Party n m}
    (hp : x.2.holds p = true) : x.1.value = false := by
  rcases hstopped with hvalue | hpoisoned
  · exact hvalue
  · have howner := (h.exclusive p).mp hp
    rw [h.poisoned hpoisoned] at howner
    cases howner

/-- Of stopped workers, a consumer inside the lock is in `on_close`. -/
theorem Placed.closing (h : Placed x) (hstopped : Stopped x.1) {i : Fin n} {b : Consuming}
    (hi : x.2.consumers i = .inside b) : b = .handler true ∨ b = .sentinel true := by
  have hvalue := h.value_of_holds hstopped (p := .consumer i) (by
    simp [Crew.holds, hi, Place.critical])
  rw [h.consumer_flag hi] at hvalue
  cases b with
  | recv => cases hvalue
  | handler closing => exact .inl (congrArg _ (by simpa [Consuming.flag] using hvalue))
  | sentinel closing => exact .inr (congrArg _ (by simpa [Consuming.flag] using hvalue))

/-- Of stopped workers, no producer is inside the lock. -/
theorem Placed.no_producer (h : Placed x) (hstopped : Stopped x.1) (j : Fin m) (b : Producing) :
    x.2.producers j ≠ .inside b := by
  intro hj
  have hvalue := h.value_of_holds hstopped (p := .producer j) (by
    simp [Crew.holds, hj, Place.critical])
  rw [h.producer_flag hj] at hvalue
  cases hvalue

/-- Of stopped workers, a step of a consumer takes one of the steps ahead, and a command that
`on_close` sends adds two. -/
theorem ahead_consumer {lock lock' : Mutex Bool (Party n m)} {s s' : Crew n m} {i : Fin n}
    {what : Do} (h : Placed (lock, s)) (hstopped : Stopped lock)
    (hstep : ConsumerStep id lock s i what lock' s') :
    s'.ahead + 1 ≤ s.ahead + if (Act.consumer i what : Act n m).cmd.isSome then 2 else 0 := by
  cases hstep with
  | closed hx _ _ => exact absurd hstopped (h.not_stopped hx)
  | short hx _ _ _ => exact absurd hstopped (h.not_stopped hx)
  | message hx _ _ _ => exact absurd hstopped (h.not_stopped hx)
  | @returned closing hx =>
    obtain ⟨⟨⟩⟩ | ⟨⟨⟩⟩ := h.closing hstopped hx
    have hmove := s.ahead_setConsumer i .leave
    rw [hx] at hmove
    show (s.setConsumer i .leave).ahead + 1 ≤ s.ahead + 0
    simp only [Place.ahead, Consuming.ahead] at hmove
    omega
  | @sends closing cmd hx =>
    obtain ⟨⟨⟩⟩ | ⟨⟨⟩⟩ := h.closing hstopped hx
    have hmove := (s.push cmd).ahead_setConsumer i (.inside (.sentinel true))
    have hpush : (s.push cmd).ahead = s.ahead := rfl
    rw [show (s.push cmd).consumers i = _ from hx] at hmove
    show ((s.push cmd).setConsumer i (.inside (.sentinel true))).ahead + 1 ≤ s.ahead + 2
    simp only [Place.ahead, Consuming.ahead] at hmove
    omega
  | @sentinel closing hx =>
    obtain ⟨⟨⟩⟩ | ⟨⟨⟩⟩ := h.closing hstopped hx
    have hmove := s.ahead_setConsumer i (.inside (.handler true))
    rw [hx] at hmove
    show (s.setConsumer i (.inside (.handler true))).ahead + 1 ≤ s.ahead + 0
    simp only [Place.ahead, Consuming.ahead] at hmove
    omega
  | @lock _ y hadvance =>
    have hmove := s.ahead_setConsumer i y
    have hnear := hadvance.ahead (k := 3) (f := Empty.elim) (g := Consuming.ahead)
      (fun _ _ => Nat.zero_le 1) rfl
    show (s.setConsumer i y).ahead + 1 ≤ s.ahead + 0
    omega

/-- Of stopped workers, every step of a thread takes one of the steps ahead, and only a command that
`on_close` sends adds to them. -/
theorem ahead_step {a : Act n m} (h : Placed x) (hstopped : Stopped x.1)
    (hstep : machine json client x a = some x') :
    x'.2.ahead + (if a.party.isSome then 1 else 0) ≤
      x.2.ahead + if a.cmd.isSome then 2 else 0 := by
  obtain ⟨lock', s'⟩ := x'
  have hheld : ∀ p, x.2.holds p = true → x.1.value ≠ true := fun _ hp =>
    ne_true_of_eq_false (h.value_of_holds hstopped hp)
  cases a with
  | loop l =>
    obtain ⟨s, hloop, heq⟩ := Option.map_eq_some_iff.mp hstep
    cases heq
    show s'.ahead + 0 ≤ x.2.ahead + 0
    rw [(loop_step hloop).same]
    exact Nat.le_refl _
  | tell msg =>
    cases tell_step hstep
    exact Nat.le_refl _
  | hangUp =>
    cases hstep
    exact Nat.le_refl _
  | consumer i what => exact ahead_consumer h hstopped (consumer_step hstep)
  | producer j what =>
    cases producer_step hstep with
    | publish hx => exact absurd hx (h.no_producer hstopped j _)
    | sentinel hx => exact absurd hx (h.no_producer hstopped j _)
    | @lock _ y hadvance =>
      have hmove := x.2.ahead_setProducer j y
      have hnear := hadvance.ahead (k := 3) (f := Empty.elim) (g := Producing.ahead)
        (fun _ _ => Nat.zero_le 1) rfl
      show (x.2.setProducer j y).ahead + 1 ≤ x.2.ahead + 0
      omega
  | waker =>
    show s'.ahead + 1 ≤ x.2.ahead + 0
    cases waker_step hstep with
    | recv hx _ =>
      simp only [Crew.ahead, hx, Place.ahead, Waking.ahead]
      omega
    | wake hx =>
      simp only [Crew.ahead, hx, Place.ahead, Waking.ahead]
      omega
    | lock hadvance =>
      have hnear := hadvance.ahead (k := 5) (f := Waking.ahead) (g := Empty.elim)
        (fun htest hvalue => absurd hvalue (hheld .waker (by
          simp [Crew.holds, htest, Place.critical]))) rfl
      simp only [Crew.ahead]
      omega
  | control =>
    show s'.ahead + 1 ≤ x.2.ahead + 0
    cases control_step hstep with
    | recv hx _ =>
      simp only [Crew.ahead, hx, Place.ahead, Controlling.ahead]
      omega
    | deaf hx _ _ =>
      simp only [Crew.ahead, hx, Place.ahead, Controlling.ahead]
      omega
    | send hx =>
      simp only [Crew.ahead, hx, Place.ahead, Controlling.ahead]
      omega
    | wake hx =>
      simp only [Crew.ahead, hx, Place.ahead, Controlling.ahead]
      omega
    | lock hadvance =>
      have hnear := hadvance.ahead (k := 6) (f := Controlling.ahead) (g := Empty.elim)
        (fun htest hvalue => absurd hvalue (hheld .control (by
          simp [Crew.holds, htest, Place.critical]))) rfl
      simp only [Crew.ahead]
      omega

/-- Of stopped workers, no step begins a call or receives a message. -/
theorem task_step {a : Act n m} (h : Placed x) (hstopped : Stopped x.1)
    (hstep : machine json client x a = some x') (jobs : List (Job n m)) :
    (note x a jobs).map Job.task = jobs.map Job.task ∧ x'.2.received = x.2.received := by
  obtain ⟨lock', s'⟩ := x'
  cases a with
  | loop l =>
    obtain ⟨s, hloop, heq⟩ := Option.map_eq_some_iff.mp hstep
    cases heq
    exact ⟨rfl, by rw [(loop_step hloop).same]⟩
  | tell msg =>
    cases tell_step hstep
    exact ⟨rfl, rfl⟩
  | hangUp =>
    cases hstep
    exact ⟨rfl, rfl⟩
  | consumer i what =>
    cases consumer_step hstep with
    | closed hx _ _ => exact absurd hstopped (h.not_stopped hx)
    | short hx _ _ _ => exact absurd hstopped (h.not_stopped hx)
    | message hx _ _ _ => exact absurd hstopped (h.not_stopped hx)
    | returned hx =>
      rw [note_next (by simp [hx])]
      exact ⟨rfl, rfl⟩
    | sends hx => exact ⟨map_task_credit _ _ _, rfl⟩
    | sentinel hx =>
      rw [note_next (by simp [hx])]
      exact ⟨rfl, rfl⟩
    | lock hadvance =>
      rw [note_next (not_inside_of_advanced hadvance _)]
      exact ⟨rfl, rfl⟩
  | producer j what =>
    cases producer_step hstep with
    | publish hx => exact absurd hx (h.no_producer hstopped j _)
    | sentinel hx => exact absurd hx (h.no_producer hstopped j _)
    | lock _ => exact ⟨rfl, rfl⟩
  | waker => cases waker_step hstep <;> exact ⟨rfl, rfl⟩
  | control => cases control_step hstep <;> exact ⟨rfl, rfl⟩

/-! ## The end -/

/-- No thread of the client can take a step. -/
def Idle (json : Json) (client : Client) (x : Mutex Bool (Party n m) × Crew n m) : Prop :=
  ∀ a : Act n m, a.party.isSome = true → machine json client x a = none

/-- A consumer can take no step if it waits for the lock or for a message, and when it has left its
loop. -/
theorem idle_consumer_iff {i : Fin n} : (∀ what, machine json client x (.consumer i what) = none) ↔
    x.2.consumers i = .lock ∧ x.1.owner.isSome = true ∨
      x.2.consumers i = .inside .recv ∧ x.2.queue = [] ∨
      x.2.consumers i = .done ∨ x.2.consumers i = .panicked := by
  have hstep : ∀ what, machine json client x (.consumer i what) = stepConsumer id x.1 x.2 i what :=
    fun _ => rfl
  simp only [hstep]
  constructor
  · intro hnone
    have hnext := hnone .next
    cases hx : x.2.consumers i with
    | outside e => exact e.elim
    | lock =>
      simp only [stepConsumer, hx, Option.map_eq_none_iff, Place.advance_eq_none] at hnext
      simpa using hnext
    | inside b =>
      cases b with
      | recv =>
        refine .inr (.inl ⟨rfl, ?_⟩)
        by_contra hne
        obtain ⟨msg, queue, hqueue⟩ := List.exists_cons_of_ne_nil hne
        simp only [stepConsumer, hx, hqueue] at hnext
        split_ifs at hnext
        split at hnext <;> cases hnext
      | _ => simp [stepConsumer, hx] at hnext
    | done => exact .inr (.inr (.inl rfl))
    | panicked => exact .inr (.inr (.inr rfl))
    | _ => simp [stepConsumer, hx, Place.advance] at hnext
  · rintro (⟨hx, howner⟩ | ⟨hx, hqueue⟩ | hx | hx) (_ | cmd)
    · simp [stepConsumer, hx, Place.advance, howner]
    · simp [stepConsumer, hx]
    · simp [stepConsumer, hx, hqueue]
    · simp [stepConsumer, hx]
    all_goals simp [stepConsumer, hx, Place.advance]

/-- A producer can take no step if it waits for the lock, and when it has left its loop. -/
theorem idle_producer_iff {j : Fin m} : (∀ what, machine json client x (.producer j what) = none) ↔
    x.2.producers j = .lock ∧ x.1.owner.isSome = true ∨
      x.2.producers j = .done ∨ x.2.producers j = .panicked := by
  have hstep : ∀ what, machine json client x (.producer j what) = stepProducer id x.1 x.2 j what :=
    fun _ => rfl
  simp only [hstep]
  constructor
  · intro hnone
    have hnext := hnone .next
    cases hx : x.2.producers j with
    | outside e => exact e.elim
    | lock =>
      simp only [stepProducer, hx, Option.map_eq_none_iff, Place.advance_eq_none] at hnext
      simpa using hnext
    | inside b =>
      cases b with
      | publish =>
        -- whatever the application publishes, it can
        have hsend := hnone (.send (NsqCmd.nop).asCmd)
        simp [stepProducer, hx] at hsend
      | sentinel => simp [stepProducer, hx] at hnext
    | done => exact .inr (.inl rfl)
    | panicked => exact .inr (.inr rfl)
    | _ => simp [stepProducer, hx, Place.advance] at hnext
  · rintro (⟨hx, howner⟩ | hx | hx) (_ | cmd)
    · simp [stepProducer, hx, Place.advance, howner]
    all_goals simp [stepProducer, hx, Place.advance]

/-- The thread that wakes the loop can take no step if it waits for the lock or for a sentinel, and
when it has left its loop. -/
theorem idle_waker_iff : machine json client x .waker = none ↔
    x.2.waker = .lock ∧ x.1.owner.isSome = true ∨ x.2.waker = .outside .recv ∧ x.2.sentinels = 0 ∨
      x.2.waker = .done ∨ x.2.waker = .panicked := by
  show stepWaker id x.1 x.2 = none ↔ _
  cases hx : x.2.waker with
  | outside b => cases b <;> simp [stepWaker, hx]
  | lock => simp [stepWaker, hx, Place.advance_eq_none]
  | inside e => exact e.elim
  | _ => simp [stepWaker, hx, Place.advance]

/-- The control thread can take no step if it waits for the lock, or for a message that the
application can still send, and when it has left its loop. -/
theorem idle_control_iff : machine json client x .control = none ↔
    x.2.control = .lock ∧ x.1.owner.isSome = true ∨
      (x.2.control = .outside .recv ∧ x.2.inCmd = [] ∧ x.2.hungUp = false) ∨
      x.2.control = .done ∨ x.2.control = .panicked := by
  show stepControl id x.1 x.2 = none ↔ _
  cases hx : x.2.control with
  | outside b =>
    cases b with
    | recv => cases hcmd : x.2.inCmd <;> cases hhung : x.2.hungUp <;>
        simp [stepControl, hx, hcmd, hhung]
    | _ => simp [stepControl, hx]
  | lock => simp [stepControl, hx, Place.advance_eq_none]
  | inside e => exact e.elim
  | _ => simp [stepControl, hx, Place.advance]

/-- If no thread can take a step, then a thread that holds the lock waits for a message. -/
theorem Placed.owner_of_idle (h : Placed x) (hidle : Idle json client x) {p : Party n m}
    (howner : x.1.owner = some p) :
    ∃ i, p = .consumer i ∧ x.2.consumers i = .inside .recv ∧ x.2.queue = [] := by
  have hp := (h.exclusive p).mpr howner
  cases p with
  | consumer i =>
    refine ⟨i, rfl, ?_⟩
    rcases idle_consumer_iff.mp fun what => hidle (.consumer i what) rfl with
      ⟨hx, -⟩ | hx | hx | hx
    · simp [Crew.holds, hx, Place.critical] at hp
    · exact hx
    · simp [Crew.holds, hx, Place.critical] at hp
    · simp [Crew.holds, hx, Place.critical] at hp
  | producer j =>
    rcases idle_producer_iff.mp fun what => hidle (.producer j what) rfl with ⟨hx, -⟩ | hx | hx <;>
      simp [Crew.holds, hx, Place.critical] at hp
  | waker =>
    rcases idle_waker_iff.mp (hidle .waker rfl) with ⟨hx, -⟩ | ⟨hx, -⟩ | hx | hx <;>
      simp [Crew.holds, hx, Place.critical] at hp
  | control =>
    rcases idle_control_iff.mp (hidle .control rfl) with ⟨hx, -⟩ | ⟨hx, -⟩ | hx | hx <;>
      simp [Crew.holds, hx, Place.critical] at hp

/-- If no thread can take a step, and nobody holds the lock, then the workers have left their
loops. -/
theorem Placed.left_of_free (h : Placed x) (hidle : Idle json client x)
    (hfree : x.1.owner = none) :
    (∀ i, x.2.consumers i = .done ∨ x.2.consumers i = .panicked) ∧
      ∀ j, x.2.producers j = .done ∨ x.2.producers j = .panicked := by
  have hnot : x.1.owner.isSome ≠ true := by simp [hfree]
  refine ⟨fun i => ?_, fun j => ?_⟩
  · rcases idle_consumer_iff.mp fun what => hidle (.consumer i what) rfl with
      ⟨-, howner⟩ | ⟨hx, -⟩ | hx
    · exact absurd howner hnot
    · have howner := (h.exclusive (.consumer i)).mp (by simp [Crew.holds, hx, Place.critical])
      rw [hfree] at howner
      cases howner
    · exact hx
  · exact (idle_producer_iff.mp fun what => hidle (.producer j what) rfl).resolve_left fun hx =>
      hnot hx.2

/-- If no thread can take a step, and the workers are stopped, nobody holds the lock: who holds it
would wait for a message. -/
theorem Placed.free_of_idle (h : Placed x) (hstopped : Stopped x.1) (hidle : Idle json client x) :
    x.1.owner = none := by
  cases howner : x.1.owner with
  | none => rfl
  | some p =>
    obtain ⟨i, -, hi, -⟩ := h.owner_of_idle hidle howner
    exact absurd hstopped (h.not_stopped hi)

end Stopped

/-- Take any run, with the jobs noted so far, to a state in which the flag is false or the mutex is
poisoned, and any continuation of it.  No call begins in it and no message is received.  Its threads
take no more steps than they had ahead of them when the workers were stopped, and two for every
command that `on_close` sends.  And where no thread can take a step any more, every consumer and
every producer has left its loop. -/
theorem winds_down {ok ok' : (Mutex Bool (Party n m) × Crew n m) × List (Job n m) → Act n m → Prop}
    {alloc : Alloc} {clock : ℕ} {as as' : List (Act n m)}
    {x y : Mutex Bool (Party n m) × Crew n m} {jobs jobs' : List (Job n m)}
    (hrun : JobRun json client ok alloc clock as x jobs) (hstopped : Stopped x.1)
    (hrest : Machine.Run (Machine.noting (machine json client) note) ok' (x, jobs) as' (y, jobs')) :
    jobs'.map Job.task = jobs.map Job.task ∧ y.2.received = x.2.received ∧
      as'.countP (fun a => a.party.isSome) ≤
        6 * n + 5 * m + 13 + 2 * as'.countP (fun a => a.cmd.isSome) ∧
      (Idle json client y → (∀ i, y.2.consumers i = .done ∨ y.2.consumers i = .panicked) ∧
        ∀ j, y.2.producers j = .done ∨ y.2.producers j = .panicked) := by
  have hplaced : Placed x := (kept_run hrun).serving.placed
  obtain ⟨⟨hplaced', hstopped'⟩, htasks, hreceived⟩ := hrest.invariant
    (fun z => (Placed z.1 ∧ Stopped z.1.1) ∧ z.2.map Job.task = jobs.map Job.task ∧
      z.1.2.received = x.2.received) ⟨⟨hplaced, hstopped⟩, rfl, rfl⟩ (by
    rintro ⟨z, js⟩ a ⟨z', js'⟩ ⟨⟨hz, hzstopped⟩, htasks, hreceived⟩ - hstep
    obtain ⟨hstep, hnote⟩ := Machine.noting_eq_some.mp hstep
    simp only at hstep hnote
    obtain ⟨htasks', hreceived'⟩ := task_step hz hzstopped hstep js
    rw [hnote]
    exact ⟨⟨placed_step hz hstep, stopped_of_step hzstopped hstep⟩, htasks'.trans htasks,
      hreceived'.trans hreceived⟩)
  have hsteps : Machine.Run (machine json client) Machine.anything x as' y :=
    hrest.forget fun _ _ _ => trivial
  have hcount := hsteps.count_le
    (fun z => Placed z ∧ Stopped z.1) (fun z => z.2.ahead) (fun a => a.party.isSome)
    (fun a => a.cmd.isSome) 2 ⟨hplaced, hstopped⟩
    (fun z a z' hz _ hstep => ⟨placed_step hz.1 hstep, stopped_of_step hz.2 hstep⟩)
    (fun z a z' hz _ hstep => ahead_step hz.1 hz.2 hstep)
  have hahead := x.2.ahead_le
  exact ⟨htasks, hreceived, by omega, fun hidle =>
    hplaced'.left_of_free hidle (hplaced'.free_of_idle hstopped' hidle)⟩

set_option maxRecDepth 4000 in
/-- A request to close after the handshake, with a consumer and a producer: the handler of the
consumer still sends a command. -/
theorem winds_down_close :
    ∃ (json : Json) (client : Client) (y : Mutex Bool (Party 1 1) × Crew 1 1),
      Idle json client y ∧ (∀ i, y.2.consumers i = .done ∨ y.2.consumers i = .panicked) ∧
      ∀ j, y.2.producers j = .done ∨ y.2.producers j = .panicked := by
  have hexec : ∃ x jobs y jobs',
      Machine.exec (Machine.noting (machine EventLoop.serde
          ⟨"t", "c", none, 1, .default none⟩) note) Machine.anything
        (start 1 1 ⟨"t", "c", none, 1, .default none⟩ .exact 0, [])
        (EventLoop.joining.map .loop ++
          [.tell .close, .control, .control, .control, .loop (.poll [⟨.cmd, .readable⟩] 0),
          .loop (.event ⟨.ok [], fun _ => .ok 0, true⟩), .consumer 0 .next, .consumer 0 .next,
          .consumer 0 .next]) = some (x, jobs) ∧
      Machine.exec (Machine.noting (machine EventLoop.serde
          ⟨"t", "c", none, 1, .default none⟩) note) Machine.anything (x, jobs)
        [.consumer 0 (.send NsqCmd.cls.asCmd), .consumer 0 .next, .consumer 0 .next,
          .consumer 0 .next, .producer 0 .next, .producer 0 .next, .producer 0 .next, .control,
          .control, .control, .waker, .waker, .waker, .waker, .waker] = some (y, jobs') ∧
      x.1.value = false ∧ y.2.consumers 0 = .done ∧ y.2.producers 0 = .done ∧
      y.2.control = .done ∧ y.2.waker = .done :=
    ⟨_, _, _, _, rfl, rfl, rfl, rfl, rfl, rfl, rfl⟩
  obtain ⟨x, jobs, y, jobs', hrun, hrest, hvalue, hconsumer, hproducer, hcontrol, hwaker⟩ := hexec
  have hidle : Idle EventLoop.serde ⟨"t", "c", none, 1, .default none⟩ y := by
    intro a ha
    cases a with
    | loop l => cases ha
    | tell msg => cases ha
    | hangUp => cases ha
    | consumer i what =>
      rw [← Subsingleton.elim 0 i]
      cases what <;> simp [machine, step, stepConsumer, hconsumer, Place.advance]
    | producer j what =>
      rw [← Subsingleton.elim 0 j]
      cases what <;> simp [machine, step, stepProducer, hproducer, Place.advance]
    | waker => simp [machine, step, stepWaker, hwaker, Place.advance]
    | control => simp [machine, step, stepControl, hcontrol, Place.advance]
  exact ⟨_, _, y, hidle, (winds_down (Machine.Run.of_exec hrun) (.inl hvalue)
    (Machine.Run.of_exec hrest)).2.2.2 hidle⟩

end Threads

end NsqClient
