import Mathlib.Logic.Basic

set_option relaxedAutoImplicit false
set_option autoImplicit false

/-!
# Computations that may fail

How a chain of computations in `Except` comes apart.

## Main definitions

* `Except.mapBoth` — a result under a change of the values and of the errors.

## Main results

* `Except.bind_eq_ok`, `Except.bind_eq_error` — when a chain succeeds and when it fails.
* `Except.mapBoth_bind` — a change of values and errors passes through a chain.
-/

namespace Except

universe u v

variable {ε : Type u} {α β : Type v}

@[simp] theorem ok_bind (a : α) (f : α → Except ε β) : Except.ok a >>= f = f a := rfl

@[simp] theorem error_bind (e : ε) (f : α → Except ε β) :
    (Except.error e : Except ε α) >>= f = .error e := rfl

/-- A chain succeeds when both of its links do. -/
theorem bind_eq_ok {x : Except ε α} {f : α → Except ε β} {b : β} :
    x >>= f = .ok b ↔ ∃ a, x = .ok a ∧ f a = .ok b := by
  constructor
  · intro h
    cases x with
    | error e => cases h
    | ok a => exact ⟨a, rfl, h⟩
  · rintro ⟨a, rfl, h⟩
    exact h

/-- A chain fails when its first link does, or the first succeeds and the second fails. -/
theorem bind_eq_error {x : Except ε α} {f : α → Except ε β} {e : ε} :
    x >>= f = .error e ↔ x = .error e ∨ ∃ a, x = .ok a ∧ f a = .error e := by
  constructor
  · intro h
    cases x with
    | error e' =>
      cases h
      exact .inl rfl
    | ok a => exact .inr ⟨a, rfl, h⟩
  · rintro (rfl | ⟨a, rfl, h⟩)
    · rfl
    · exact h

variable {ε' : Type u} {α' β' : Type v}

/-- A result under a change of the values and of the errors. -/
def mapBoth (g : ε → ε') (h : α → α') : Except ε α → Except ε' α'
  | .ok a => .ok (h a)
  | .error e => .error (g e)

@[simp] theorem mapBoth_ok (g : ε → ε') (h : α → α') (a : α) :
    (Except.ok a : Except ε α).mapBoth g h = .ok (h a) := rfl

@[simp] theorem mapBoth_error (g : ε → ε') (h : α → α') (e : ε) :
    (Except.error e : Except ε α).mapBoth g h = .error (g e) := rfl

/-- A change of values and errors passes through a chain. -/
theorem mapBoth_bind {g : ε → ε'} {h : α → α'} {h' : β → β'} {x : Except ε α}
    {f : α → Except ε β} {f' : α' → Except ε' β'} (hf : ∀ a, f' (h a) = (f a).mapBoth g h') :
    x.mapBoth g h >>= f' = (x >>= f).mapBoth g h' := by
  cases x with
  | error e => rfl
  | ok a => exact hf a

end Except
