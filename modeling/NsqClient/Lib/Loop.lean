import Mathlib.Data.Nat.Notation
import Mathlib.Tactic.Common
import NsqClient.Lib.Except

set_option relaxedAutoImplicit false
set_option autoImplicit false

/-!
# Loops that can return, go round again, or fail

A `loop { … }` whose body either returns, or fails, or changes the state and goes round once
more.  `Loop.iterate` runs such a body for a bounded number of passes; a `Loop.Measured` loop
carries a measure of the state that every further pass lowers, so that a number of passes that
always suffices is known from the state alone, and its `run` never gives up
(`Loop.Measured.run_eq`).

## Main definitions

* `Loop.Step`, `Loop.iterate` — one pass, and a bounded number of them.
* `Loop.Passes` — the states in which a pass begins.
* `Loop.Measured`, `Loop.Measured.run` — a loop with a decreasing measure, and its run.

## Main results

* `Loop.Passes.invariant` — what every further pass preserves holds whenever a pass begins.
* `Loop.Measured.run_eq` — the run unfolds into its first pass.
* `Loop.Measured.run_map` — what commutes with the body commutes with the run.
* `Loop.Measured.run_cases` — a run ends with the return or the failure of some pass.
-/

namespace Loop

variable {ε σ : Type*}

/-- How one pass through the body of a loop ends. -/
inductive Step (ε σ : Type*) where
  /-- The loop is left by `return`. -/
  | ret (s : σ)
  /-- The loop goes round once more. -/
  | next (s : σ)
  /-- The pass fails. -/
  | fail (e : ε)

/-- A step under a change of the states and of the errors. -/
def Step.map (g : ε → ε) (h : σ → σ) : Step ε σ → Step ε σ
  | .ret s => .ret (h s)
  | .next s => .next (h s)
  | .fail e => .fail (g e)

/-- At most `fuel` passes of `body`; `spin` when they did not suffice. -/
def iterate (spin : ε) (body : σ → Step ε σ) : ℕ → σ → Except ε σ
  | 0, _ => .error spin
  | fuel + 1, s =>
    match body s with
    | .ret t => .ok t
    | .next t => iterate spin body fuel t
    | .fail e => .error e

/-- `Passes body s t`: a loop entered in `s` begins a pass in `t`. -/
inductive Passes (body : σ → Step ε σ) (s : σ) : σ → Prop where
  | start : Passes body s s
  | next {t u : σ} : Passes body s t → body t = .next u → Passes body s u

/-- What every further pass preserves holds whenever a pass begins. -/
theorem Passes.invariant {body : σ → Step ε σ} {s t : σ} (I : σ → Prop)
    (hI : ∀ u v, I u → body u = .next v → I v) (h : Passes body s t) (hs : I s) : I t := by
  induction h with
  | start => exact hs
  | next _ hb ih => exact hI _ _ ih hb

/-- A pass that begins after the first one begins after the state the first one led to. -/
theorem Passes.head {body : σ → Step ε σ} {s t u : σ} (hb : body s = .next t)
    (h : Passes body t u) : Passes body s u := by
  induction h with
  | start => exact .next .start hb
  | next _ hb' ih => exact .next ih hb'

/-- A loop together with a measure that every further pass lowers. -/
structure Measured (ε σ : Type*) where
  /-- One pass. -/
  body : σ → Step ε σ
  /-- The measure. -/
  size : σ → ℕ
  /-- A further pass starts from a state of smaller measure. -/
  lt : ∀ s t, body s = .next t → size t < size s

namespace Measured

variable (L : Measured ε σ) (spin : ε)

/-- The run of a measured loop: as many passes as the measure of the state allows for. -/
def run (s : σ) : Except ε σ := iterate spin L.body (L.size s + 1) s

/-- More passes than the measure allows for change nothing. -/
theorem iterate_eq_run (n : ℕ) (s : σ) (h : L.size s < n) :
    iterate spin L.body n s = L.run spin s := by
  induction hm : L.size s using Nat.strongRecOn generalizing n s with
  | ind m ih =>
    obtain ⟨k, rfl⟩ : ∃ k, n = k + 1 := ⟨n - 1, by omega⟩
    unfold run
    simp only [iterate]
    cases hb : L.body s with
    | ret t => rfl
    | fail e => rfl
    | next t =>
      have hlt := L.lt s t hb
      change iterate spin L.body k t = iterate spin L.body (L.size s) t
      rw [ih (L.size t) (by omega) k t (by omega) rfl,
        ih (L.size t) (by omega) (L.size s) t (by omega) rfl]

/-- A run is its first pass, followed by the run from the state that pass leads to. -/
theorem run_eq (s : σ) : L.run spin s =
    match L.body s with
    | .ret t => .ok t
    | .next t => L.run spin t
    | .fail e => .error e := by
  rw [run, iterate]
  cases hb : L.body s with
  | ret t => rfl
  | fail e => rfl
  | next t => exact iterate_eq_run L spin _ t (L.lt s t hb)

/-- What a run would give if it ran out of passes plays no part. -/
theorem run_congr (spin' : ε) (s : σ) : L.run spin s = L.run spin' s := by
  induction hm : L.size s using Nat.strongRecOn generalizing s with
  | ind m ih =>
    rw [run_eq, run_eq]
    cases hb : L.body s with
    | ret t => rfl
    | fail e => rfl
    | next t =>
      have hlt := L.lt s t hb
      exact ih (L.size t) (by omega) t rfl

/-- A change of states and errors that passes through the body passes through the run. -/
theorem run_map {g : ε → ε} {h : σ → σ} (hbody : ∀ s, L.body (h s) = (L.body s).map g h) (s : σ) :
    L.run (g spin) (h s) = (L.run spin s).mapBoth g h := by
  induction hm : L.size s using Nat.strongRecOn generalizing s with
  | ind m ih =>
    rw [run_eq, run_eq, hbody]
    cases hb : L.body s with
    | ret t => rfl
    | fail e => rfl
    | next t =>
      have hlt := L.lt s t hb
      exact ih (L.size t) (by omega) t rfl

/-- A run ends because some pass returned or failed: it never runs out of passes. -/
theorem run_cases (s : σ) :
    (∃ u t, Passes L.body s u ∧ L.body u = .ret t ∧ L.run spin s = .ok t) ∨
    (∃ u e, Passes L.body s u ∧ L.body u = .fail e ∧ L.run spin s = .error e) := by
  induction hm : L.size s using Nat.strongRecOn generalizing s with
  | ind m ih =>
    rw [run_eq]
    cases hb : L.body s with
    | ret t => exact .inl ⟨s, t, .start, hb, rfl⟩
    | fail e => exact .inr ⟨s, e, .start, hb, rfl⟩
    | next t =>
      have hlt := L.lt s t hb
      rcases ih (L.size t) (by omega) t rfl with ⟨u, v, hp, hu, hr⟩ | ⟨u, e, hp, hu, hr⟩
      · exact .inl ⟨u, v, hp.head hb, hu, hr⟩
      · exact .inr ⟨u, e, hp.head hb, hu, hr⟩

end Measured

end Loop
