import Mathlib.Tactic.SplitIfs

set_option relaxedAutoImplicit false
set_option autoImplicit false

/-!
# A flag behind a mutex

Threads that run the same loop: something outside the lock, the lock, a test of the flag, something
inside the lock, and the end of the pass, where the lock is let go.  A thread that finds the flag
false leaves its loop; a thread that panics inside poisons the mutex, and whoever takes a poisoned
mutex panics.

## Main definitions

* `Mutex` — a value, whether it is poisoned, and who holds the lock.
* `Mutex.Place`, `Mutex.Place.advance` — where a thread is, and the steps that concern the lock.
* `Mutex.Place.Inside` — a property of the threads that are inside.
* `Mutex.Place.turns` — how long a thread keeps the lock.
* `Mutex.Place.ahead` — how far a thread is from its end, or from where it has to wait.
* `Mutex.Turn` — what one thread can do to a mutex.
* `Mutex.view` — a mutex as part of the threads see it.
* `Mutex.Exclusive` — the threads that think they hold the lock are the one that does.

## Main results

* `Mutex.Exclusive.turn` — every turn keeps the exclusion.
* `Mutex.Exclusive.blocks` — the others wait for the thread that holds the lock.
-/

/-- A value behind a lock. -/
structure Mutex (α P : Type) where
  value : α
  poisoned : Bool
  owner : Option P

namespace Mutex

variable {α β γ P : Type}

/-- Nobody holds the lock. -/
def init (value : α) : Mutex α P := ⟨value, false, none⟩

/-- Where a thread is in its loop. -/
inductive Place (α β : Type) where
  | outside (a : α)
  /-- At `lock().unwrap()`. -/
  | lock
  /-- At the test of the flag. -/
  | test
  | inside (b : β)
  /-- At the end of a pass, where the guard is dropped. -/
  | unlock
  /-- At a `break`, where the guard is dropped. -/
  | leave
  | done
  | panicked
  deriving DecidableEq

/-- Whether a thread holds the lock. -/
def Place.critical : Place α β → Bool
  | test => true
  | inside _ => true
  | unlock => true
  | leave => true
  | _ => false

/-- Whether a thread has left its loop. -/
def Place.left : Place α β → Bool
  | leave => true
  | done => true
  | panicked => true
  | _ => false

/-- The steps of the thread `p` that concern the lock.  With the flag true it goes on at `enter`,
and after a pass at `again`. -/
def Place.advance (x enter again : Place α β) (p : P) (m : Mutex Bool P) :
    Option (Mutex Bool P × Place α β) :=
  match x with
  | lock =>
    if m.owner.isSome then none
    else if m.poisoned then some (m, panicked)
    else some ({ m with owner := some p }, test)
  | test => some (m, if m.value then enter else leave)
  | unlock => some ({ m with owner := none }, again)
  | leave => some ({ m with owner := none }, done)
  | _ => none

/-- How many steps a thread that holds the lock keeps it, at most, if it gets on inside: `g` says it
for the code there. -/
def Place.turns (g : β → Nat) : Place α β → Nat
  | test => 4
  | inside b => g b
  | unlock => 1
  | leave => 1
  | _ => 0

theorem Place.turns_le {g : β → Nat} (hg : ∀ b, g b ≤ 4) (x : Place α β) : x.turns g ≤ 4 := by
  cases x with
  | inside b => exact hg b
  | _ =>
    simp only [turns]
    omega

/-- A thread that holds the lock has a step to take before it lets it go. -/
theorem Place.turns_pos {g : β → Nat} (hg : ∀ b, 0 < g b) {x : Place α β}
    (hx : x.critical = true) : 0 < x.turns g := by
  cases x with
  | test => exact (by decide : 0 < 4)
  | inside b => exact hg b
  | unlock => exact Nat.one_pos
  | leave => exact Nat.one_pos
  | _ => cases hx

/-- The steps that concern the lock, for a thread that holds it and is not inside: it lets the lock
go, or it goes on holding it, for fewer steps than before. -/
theorem Place.exists_advance {x enter again : Place α β} {p : P} {m : Mutex Bool P} {g : β → Nat}
    (hx : x.critical = true) (hinside : ∀ b, x ≠ inside b) (henter : enter.critical = true)
    (hg : enter.turns g < 4) : ∃ m' x', x.advance enter again p m = some (m', x') ∧
      (m'.owner = none ∨ m'.owner = m.owner ∧ x'.critical = true ∧ x'.turns g < x.turns g) := by
  cases x with
  | test =>
    refine ⟨m, if m.value then enter else leave, rfl, .inr ⟨rfl, ?_⟩⟩
    split_ifs
    · exact ⟨henter, hg⟩
    · exact ⟨rfl, (by decide : 1 < 4)⟩
  | inside b => exact absurd rfl (hinside b)
  | unlock => exact ⟨_, _, rfl, .inl rfl⟩
  | leave => exact ⟨_, _, rfl, .inl rfl⟩
  | _ => cases hx

/-- What has to hold of a thread that is inside. -/
def Place.Inside (P : β → Prop) : Place α β → Prop
  | inside b => P b
  | _ => True

/-- What these steps are. -/
inductive Place.Advanced (enter again : Place α β) (p : P) (m : Mutex Bool P) :
    Place α β → Mutex Bool P → Place α β → Prop where
  | panic : m.owner = none → m.poisoned = true → Advanced enter again p m lock m panicked
  | acquire :
      m.owner = none → m.poisoned = false →
      Advanced enter again p m lock { m with owner := some p } test
  | go : m.value = true → Advanced enter again p m test m enter
  | stop : m.value = false → Advanced enter again p m test m leave
  | unlock : Advanced enter again p m unlock { m with owner := none } again
  | leave : Advanced enter again p m leave { m with owner := none } done

/-- There are no others. -/
theorem Place.advanced {x x' enter again : Place α β} {p : P} {m m' : Mutex Bool P}
    (h : x.advance enter again p m = some (m', x')) : Advanced enter again p m x m' x' := by
  cases x with
  | lock =>
    simp only [advance] at h
    split_ifs at h with howner hpoisoned
    · cases h
      exact .panic (by simpa using howner) hpoisoned
    · cases h
      exact .acquire (by simpa using howner) (by simpa using hpoisoned)
  | test =>
    cases h
    split_ifs with hvalue
    · exact .go hvalue
    · exact .stop (by simpa using hvalue)
  | unlock =>
    cases h
    exact .unlock
  | leave =>
    cases h
    exact .leave
  | _ => cases h

/-- They do not touch the value. -/
theorem Place.Advanced.value {x x' enter again : Place α β} {p : P} {m m' : Mutex Bool P}
    (h : Advanced enter again p m x m' x') : m'.value = m.value ∧ m'.poisoned = m.poisoned := by
  cases h <;> exact ⟨rfl, rfl⟩

/-- They leave a mutex that is poisoned without an owner. -/
theorem Place.Advanced.poisoned {x x' enter again : Place α β} {p : P} {m m' : Mutex Bool P}
    (h : Advanced enter again p m x m' x') (hm : m.poisoned = true → m.owner = none) :
    m'.poisoned = true → m'.owner = none := by
  cases h with
  | panic _ _ => exact hm
  | acquire _ hclean =>
    intro hpoisoned
    have hpoisoned : m.poisoned = true := hpoisoned
    rw [hclean] at hpoisoned
    cases hpoisoned
  | go _ => exact hm
  | stop _ => exact hm
  | unlock => exact fun _ => rfl
  | leave => exact fun _ => rfl

/-- They lead inside only with the flag true. -/
theorem Place.Advanced.inside {x x' enter again : Place α β} {p : P} {m m' : Mutex Bool P}
    (h : Advanced enter again p m x m' x') {Q : β → Prop} (henter : m.value = true → enter.Inside Q)
    (hagain : again.Inside Q) : x'.Inside Q := by
  cases h with
  | go hvalue => exact henter hvalue
  | unlock => exact hagain
  | _ => trivial

/-- A thread that has panicked takes none of them. -/
theorem Place.Advanced.alive {x x' enter again : Place α β} {p : P} {m m' : Mutex Bool P}
    (h : Advanced enter again p m x m' x') : x ≠ panicked := by
  rintro rfl
  cases h

/-- A thread panics only at a mutex that is poisoned. -/
theorem Place.Advanced.unharmed {x x' enter again : Place α β} {p : P} {m m' : Mutex Bool P}
    (h : Advanced enter again p m x m' x') (hclean : m.poisoned = false)
    (henter : enter ≠ panicked) (hagain : again ≠ panicked) : x' ≠ panicked := by
  cases h with
  | panic _ hpoisoned =>
    rw [hclean] at hpoisoned
    cases hpoisoned
  | acquire _ _ => simp
  | go _ => exact henter
  | stop _ => simp
  | unlock => exact hagain
  | leave => simp

/-- How many steps a thread can still take in a loop that it leaves at the next test of the flag, or
in which it has to wait for something: `f` says it for the code outside the lock, `g` for that
inside, and `k` for the place after a pass. -/
def Place.ahead (k : Nat) (f : α → Nat) (g : β → Nat) : Place α β → Nat
  | outside a => f a
  | lock => 3
  | test => 2
  | inside b => g b
  | unlock => k + 1
  | leave => 1
  | done => 0
  | panicked => 0

/-- A bound for them. -/
theorem Place.ahead_le {k c : Nat} {f : α → Nat} {g : β → Nat} (hk : k < c) (hc : 3 ≤ c)
    (hf : ∀ a, f a ≤ c) (hg : ∀ b, g b ≤ c) (x : Place α β) : x.ahead k f g ≤ c := by
  cases x with
  | outside a => exact hf a
  | inside b => exact hg b
  | _ =>
    simp only [ahead]
    omega

/-- The steps that concern the lock bring a thread nearer to its end, and, if it goes on inside the
lock, to where it has to wait there. -/
theorem Place.Advanced.ahead {x x' enter again : Place α β} {p : P} {m m' : Mutex Bool P}
    (h : Advanced enter again p m x m' x') {k : Nat} {f : α → Nat} {g : β → Nat}
    (henter : x = test → m.value = true → enter.ahead k f g ≤ 1)
    (hagain : again.ahead k f g = k) : x'.ahead k f g + 1 ≤ x.ahead k f g := by
  cases h with
  | panic _ _ =>
    show 0 + 1 ≤ 3
    omega
  | go hvalue =>
    have hinside := henter rfl hvalue
    show x'.ahead k f g + 1 ≤ 2
    omega
  | unlock =>
    rw [hagain]
    exact Nat.le_refl _
  | _ => exact Nat.le_refl _

/-- The steps that concern the lock lead out of the loop only if the flag is false or the mutex is
poisoned. -/
theorem Place.Advanced.left {x x' enter again : Place α β} {p : P} {m m' : Mutex Bool P}
    (h : Advanced enter again p m x m' x') (henter : enter.left = false)
    (hagain : again.left = false) (hx' : x'.left = true) :
    x.left = true ∨ m.value = false ∨ m.poisoned = true := by
  cases h with
  | panic _ hpoisoned => exact .inr (.inr hpoisoned)
  | acquire _ _ => cases hx'
  | go _ =>
    rw [henter] at hx'
    cases hx'
  | stop hvalue => exact .inr (.inl hvalue)
  | unlock =>
    rw [hagain] at hx'
    cases hx'
  | leave => exact .inl rfl

/-- A thread cannot take such a step if it is outside or inside, if it waits for the lock, and at
its end. -/
theorem Place.advance_eq_none {x enter again : Place α β} {p : P} {m : Mutex Bool P} :
    x.advance enter again p m = none ↔ (∃ a, x = outside a) ∨ (x = lock ∧ m.owner.isSome = true) ∨
      (∃ b, x = inside b) ∨ x = done ∨ x = panicked := by
  cases x with
  | lock =>
    simp only [advance]
    split_ifs with howner hpoisoned <;> simp [howner]
  | _ => simp [advance]

/-- A thread that does not hold the lock and has not left its loop is outside, or waits for the
lock. -/
theorem Place.waiting {x : Place α β} (hcritical : x.critical = false) (hleft : x.left = false) :
    (∃ a, x = outside a) ∨ x = lock := by
  cases x with
  | outside a => exact .inl ⟨a, rfl⟩
  | lock => exact .inr rfl
  | done => cases hleft
  | panicked => cases hleft
  | _ => cases hcritical

/-! ## Turns -/

/-- What the thread `p` can do to a mutex, and whether it holds the lock before and after. -/
inductive Turn (p : P) (m : Mutex α P) : Bool → Mutex α P → Bool → Prop where
  | idle {b : Bool} : Turn p m b m b
  | acquire : m.owner = none → Turn p m false { m with owner := some p } true
  | write (value : α) : Turn p m true { m with value := value } true
  | release : Turn p m true { m with owner := none } false
  | poison : Turn p m true { m with owner := none, poisoned := true } false

/-- The steps that concern the lock are turns, if `enter` is inside and `again` outside. -/
theorem Place.Advanced.turn {x x' enter again : Place β γ} {p : P} {m m' : Mutex Bool P}
    (h : Advanced enter again p m x m' x') (henter : enter.critical = true)
    (hagain : again.critical = false) : Turn p m x.critical m' x'.critical := by
  cases h with
  | panic _ _ => exact .idle
  | acquire howner _ => exact .acquire howner
  | go _ =>
    rw [henter]
    exact .idle
  | stop _ => exact .idle
  | unlock =>
    rw [hagain]
    exact .release
  | leave => exact .release

/-- The threads that hold the lock, by where they are, are the owner of the lock. -/
def Exclusive (m : Mutex α P) (holds : P → Bool) : Prop := ∀ p, holds p = true ↔ m.owner = some p

/-- Nobody holds the lock at first. -/
theorem exclusive_init (value : α) {holds : P → Bool} (h : ∀ p, holds p = false) :
    Exclusive (init value) holds := by
  intro p
  rw [h p]
  exact ⟨nofun, nofun⟩

/-- Two threads that hold the lock are one. -/
theorem Exclusive.unique {m : Mutex α P} {holds : P → Bool} (h : Exclusive m holds) {p q : P}
    (hp : holds p = true) (hq : holds q = true) : p = q := by
  have howner := (h p).mp hp
  rw [(h q).mp hq] at howner
  exact (Option.some.inj howner).symm

/-- A turn of one thread keeps the exclusion, if the other threads stay where they are. -/
theorem Exclusive.turn {m m' : Mutex α P} {holds holds' : P → Bool} {p : P}
    (h : Exclusive m holds) (hturn : Turn p m (holds p) m' (holds' p))
    (hframe : ∀ q, q ≠ p → holds' q = holds q) : Exclusive m' holds' := by
  have hother : ∀ q, q ≠ p → holds' q = true → m.owner ≠ some p := by
    intro q hq hq' howner
    rw [hframe q hq] at hq'
    exact hq (h.unique hq' ((h p).mpr howner))
  have hself := h p
  generalize hb : holds p = b at hturn hself
  generalize hb' : holds' p = b' at hturn
  intro q
  by_cases hq : q = p
  · subst hq
    rw [hb']
    cases hturn with
    | idle => exact hself
    | acquire _ => simp
    | write _ => exact hself
    | release => simp
    | poison => simp
  · rw [hframe q hq, h q]
    cases hturn with
    | idle => exact Iff.rfl
    | acquire hnone =>
      rw [hnone]
      simpa using fun heq => hq heq.symm
    | write _ => exact Iff.rfl
    | release =>
      rw [(h p).mp hb]
      simpa using fun heq => hq heq.symm
    | poison =>
      rw [(h p).mp hb]
      simpa using fun heq => hq heq.symm

/-- While one thread holds the lock, no other thread takes a step that concerns it. -/
theorem Exclusive.blocks {m m' : Mutex Bool P} {holds : P → Bool} (h : Exclusive m holds) {p q : P}
    (hp : holds p = true) (hq : q ≠ p) {enter again x x' : Place β γ} (hx : x.critical = holds q)
    (hstep : Place.Advanced enter again q m x m' x') : False := by
  have howner := (h p).mp hp
  have hnot : x.critical ≠ true := by
    rw [hx]
    exact fun hcritical => hq (h.unique hcritical hp)
  cases hstep with
  | panic hnone _ =>
    rw [hnone] at howner
    cases howner
  | acquire hnone _ =>
    rw [hnone] at howner
    cases howner
  | _ => exact hnot rfl

/-- What a turn does to the owner. -/
theorem Turn.owner {p : P} {m m' : Mutex α P} {b b' : Bool} (h : Turn p m b m' b') :
    m'.owner = m.owner ∨ m.owner = none ∧ m'.owner = some p ∨ b = true ∧ m'.owner = none := by
  cases h with
  | idle => exact .inl rfl
  | acquire hnone => exact .inr (.inl ⟨hnone, rfl⟩)
  | write _ => exact .inl rfl
  | release => exact .inr (.inr ⟨rfl, rfl⟩)
  | poison => exact .inr (.inr ⟨rfl, rfl⟩)

/-! ## Views -/

variable {Q : Type}

/-- The mutex as those see it who know the threads by `f`, and do not know all of them. -/
def view (f : P → Option Q) (m : Mutex α P) : Mutex α Q := ⟨m.value, m.poisoned, m.owner.bind f⟩

/-- A step that concerns the lock is one in every view that knows the thread. -/
theorem Place.Advanced.view {enter again x x' : Place β γ} {p : P} {m m' : Mutex Bool P}
    (h : Advanced enter again p m x m' x') {f : P → Option Q} {q : Q} (hp : f p = some q) :
    x.advance enter again q (m.view f) = some (m'.view f, x') := by
  cases h with
  | panic hnone hpoisoned => simp [advance, Mutex.view, hnone, hpoisoned]
  | acquire hnone hpoisoned => simp [advance, Mutex.view, hnone, hpoisoned, hp]
  | go hvalue => simp [advance, Mutex.view, hvalue]
  | stop hvalue => simp [advance, Mutex.view, hvalue]
  | unlock => rfl
  | leave => rfl

end Mutex
