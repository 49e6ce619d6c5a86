import Mathlib.Logic.Basic
import Mathlib.Tactic.SplitIfs

set_option relaxedAutoImplicit false
set_option autoImplicit false

/-!
# Labelled machines

A machine takes steps, each under a label that says who moves and what the environment answers.
A run is a sequence of steps; a condition may restrict which labels are allowed in which state.

## Main definitions

* `Machine.Run` — a run of a machine under a condition on its steps.
* `Machine.exec` — taking given steps.

## Main results

* `Machine.Run.invariant` — what the start has and every allowed step keeps, every state reached
  has.
* `Machine.Run.mono`, `Machine.Run.and` — a run under a condition is a run under a weaker one;
  under two conditions it is a run under both.
* `Machine.Run.simulate` — if a relation to the states of another machine passes through every
  step, which the other machine answers by a run, then it passes through every run.
* `Machine.run_map` — what commutes with the steps commutes with the runs.
-/

namespace Machine

variable {σ l : Type*}

/-- A run of the machine `step` from `s` under the labels `ls`, each of which is allowed by `ok`
in the state it is taken in. -/
inductive Run (step : σ → l → Option σ) (ok : σ → l → Prop) (s : σ) : List l → σ → Prop where
  | nil : Run step ok s [] s
  | snoc {ls : List l} {t u : σ} {a : l} :
      Run step ok s ls t → ok t a → step t a = some u → Run step ok s (ls ++ [a]) u

/-- The condition that allows everything. -/
def anything (_ : σ) (_ : l) : Prop := True

variable {step : σ → l → Option σ} {ok : σ → l → Prop}

/-- What the start has and every allowed step keeps, every state reached has. -/
theorem Run.invariant {s t : σ} {ls : List l} (I : σ → Prop) (hs : I s)
    (hstep : ∀ t a u, I t → ok t a → step t a = some u → I u) (h : Run step ok s ls t) : I t := by
  induction h with
  | nil => exact hs
  | snoc _ hok hu ih => exact hstep _ _ _ ih hok hu

/-- A run under a condition is a run under a weaker one. -/
theorem Run.mono {ok' : σ → l → Prop} (himp : ∀ s a, ok s a → ok' s a) {s t : σ} {ls : List l}
    (h : Run step ok s ls t) : Run step ok' s ls t := by
  induction h with
  | nil => exact .nil
  | snoc _ hok hu ih => exact .snoc ih (himp _ _ hok) hu

/-- A run without steps. -/
theorem run_nil {s t : σ} : Run step ok s [] t ↔ t = s := by
  constructor
  · intro h
    generalize hls : ([] : List l) = ls at h
    cases h with
    | nil => rfl
    | snoc _ _ _ => simp at hls
  · rintro rfl
    exact .nil

/-- The last step of a run. -/
theorem run_concat {s u : σ} {ls : List l} {a : l} :
    Run step ok s (ls ++ [a]) u ↔ ∃ t, Run step ok s ls t ∧ ok t a ∧ step t a = some u := by
  constructor
  · intro h
    generalize hls : ls ++ [a] = ls' at h
    cases h with
    | nil => simp at hls
    | snoc h hok hu =>
      obtain ⟨rfl, hlast⟩ := List.append_inj' hls rfl
      cases hlast
      exact ⟨_, h, hok, hu⟩
  · rintro ⟨t, h, hok, hu⟩
    exact .snoc h hok hu

/-- Two runs from one state under the same labels are one run, and every step meets both
conditions. -/
theorem Run.and {ok' : σ → l → Prop} {s t u : σ} {ls : List l} (h : Run step ok s ls t)
    (h' : Run step ok' s ls u) : t = u ∧ Run step (fun s a => ok s a ∧ ok' s a) s ls t := by
  induction h generalizing u with
  | nil => exact ⟨(run_nil.mp h').symm, .nil⟩
  | snoc _ hok hu ih =>
    obtain ⟨v, hv, hok', hu'⟩ := run_concat.mp h'
    obtain ⟨rfl, hrun⟩ := ih hv
    rw [hu] at hu'
    cases hu'
    exact ⟨rfl, .snoc hrun ⟨hok, hok'⟩ hu⟩

/-- One run after another. -/
theorem Run.append {s t u : σ} {ls ls' : List l} (h : Run step ok s ls t)
    (h' : Run step ok t ls' u) : Run step ok s (ls ++ ls') u := by
  induction h' with
  | nil =>
    rw [List.append_nil]
    exact h
  | snoc _ hok hu ih =>
    rw [← List.append_assoc]
    exact .snoc ih hok hu

/-- If related states stay related in every step, and another machine answers the step by a run,
then it answers every run. -/
theorem Run.simulate {τ l' : Type*} {step' : τ → l' → Option τ} {ok' : τ → l' → Prop}
    (R : σ → τ → Prop)
    (hstep : ∀ {s a s' t}, R s t → ok s a → step s a = some s' →
      ∃ ls t', Run step' ok' t ls t' ∧ R s' t')
    {s s' : σ} {t : τ} {ls : List l} (hst : R s t) (h : Run step ok s ls s') :
    ∃ ls' t', Run step' ok' t ls' t' ∧ R s' t' := by
  induction h with
  | nil => exact ⟨[], t, .nil, hst⟩
  | snoc _ hok hu ih =>
    obtain ⟨ls₁, t₁, hrun₁, hrel₁⟩ := ih
    obtain ⟨ls₂, t₂, hrun₂, hrel₂⟩ := hstep hrel₁ hok hu
    exact ⟨ls₁ ++ ls₂, t₂, hrun₁.append hrun₂, hrel₂⟩

/-- A change of states that passes through the steps passes through the runs. -/
theorem run_map {h : σ → σ} (hstep : ∀ s a, step (h s) a = (step s a).map h) {s t : σ}
    {ls : List l} :
    Run step anything (h s) ls t ↔ ∃ u, Run step anything s ls u ∧ t = h u := by
  constructor
  · intro hrun
    generalize hs : h s = s' at hrun
    induction hrun with
    | nil => exact ⟨s, .nil, hs.symm⟩
    | snoc _ _ hu ih =>
      obtain ⟨u, hrun, rfl⟩ := ih
      rw [hstep] at hu
      obtain ⟨v, hv, rfl⟩ := Option.map_eq_some_iff.mp hu
      exact ⟨v, .snoc hrun trivial hv, rfl⟩
  · rintro ⟨u, hrun, rfl⟩
    induction hrun with
    | nil => exact .nil
    | snoc _ _ hu ih =>
      refine .snoc ih trivial ?_
      rw [hstep, hu]
      rfl

/-- Take the steps given, if each of them is allowed and possible. -/
def exec (step : σ → l → Option σ) (ok : σ → l → Prop) [∀ s a, Decidable (ok s a)] :
    σ → List l → Option σ
  | s, [] => some s
  | s, a :: as =>
    if ok s a then
      match step s a with
      | none => none
      | some t => exec step ok t as
    else none

instance (s : σ) (a : l) : Decidable (anything s a) := inferInstanceAs (Decidable True)

/-- A step, and a run after it. -/
theorem Run.cons {s t u : σ} {a : l} {ls : List l} (hok : ok s a) (ht : step s a = some t)
    (h : Run step ok t ls u) : Run step ok s (a :: ls) u := by
  induction h with
  | nil => exact Run.snoc .nil hok ht
  | snoc _ hok' hu ih => exact Run.snoc ih hok' hu

/-- Steps that can be taken are a run. -/
theorem Run.of_exec [∀ s a, Decidable (ok s a)] {s t : σ} {ls : List l}
    (h : exec step ok s ls = some t) : Run step ok s ls t := by
  induction ls generalizing s with
  | nil =>
    cases h
    exact .nil
  | cons a ls ih =>
    unfold exec at h
    split_ifs at h with hok
    cases hstep : step s a with
    | none =>
      rw [hstep] at h
      cases h
    | some u =>
      rw [hstep] at h
      exact .cons hok hstep (ih h)

end Machine
